import Searpc.RegistryCellsProofs

/-! # Where a marshal comes from — whatever is registered again

    A function that is registered again leaves a freed key behind, and what a
    later lookup finds, if it comes to an end at all, is hard to say.  But the
    keys of the MARSHAL TABLE are never freed, so a signature keeps its marshal;
    and an item of a function table is made in one piece, from a function and
    the marshal of its signature.  So in every run a function that is run is run
    by the marshal of a signature it was registered with (`ran_registered`). -/

namespace SearpcRegistryCells

open ByteMemory JsonValue SearpcJansson SearpcServer SearpcRegistry

variable {α F M ρ : Type} {gStrHash : Bytes → Nat}

/-! ## Registered functions -/

/-- The names inside a service. -/
def namesOf (service : ServiceCell F M) : List Cell :=
  service.name :: service.funcTable.map (fun f => f.value.fname)

/-- A call of the history registered the function, and its signature means this
    marshal. -/
def Registered (history : List (Op F M)) (item : FuncCell F M) : Prop :=
  ∃ svcName fname signature, Op.registerFunction svcName item.func fname signature ∈ history
    ∧ marshalOf history signature = some item.marshal.mfunc

theorem Registered.later {history : List (Op F M)} {item : FuncCell F M}
    (h : Registered history item) (op : Op F M) : Registered (op :: history) item := by
  obtain ⟨svcName, fname, signature, hmem, hmarshal⟩ := h
  exact ⟨svcName, fname, signature, List.mem_cons_of_mem op hmem, marshalOf_append hmarshal [op]⟩

/-! ## What is left alone -/

/-- The heap has changed, and the strings of some cells have not. -/
structure Spares (cells : List Cell) (heap heap' : Heap) : Prop where
  bounded : heap'.Bounded
  next    : heap.next ≤ heap'.next
  text    : ∀ c ∈ cells, heap'.text c = heap.text c

section Spares

variable {cells : List Cell} {heap heap' heap'' : Heap}

theorem spares_refl (h : heap.Bounded) : Spares cells heap heap :=
  ⟨h, Nat.le_refl _, fun _ _ => rfl⟩

theorem Spares.trans (h : Spares cells heap heap') (h' : Spares cells heap' heap'') :
    Spares cells heap heap'' :=
  ⟨h'.bounded, Nat.le_trans h.next h'.next, fun c hc => (h'.text c hc).trans (h.text c hc)⟩

theorem spares_strdup (h : heap.Bounded) (hnew : heap.next ∉ cells) (s : Bytes) :
    Spares cells heap (heap.strdup s) :=
  ⟨bounded_strdup h s, Nat.le_succ _, fun _ hc => text_strdup_ne (fun heq => hnew (heq ▸ hc)) s⟩

theorem spares_free (h : heap.Bounded) {cell : Cell} (hcell : cell ∉ cells) :
    Spares cells heap (heap.free cell) :=
  ⟨bounded_free h cell, Nat.le_refl _, fun _ hc => text_free_ne (fun heq => hcell (heq ▸ hc))⟩

theorem spares_freeAll (h : heap.Bounded) {freed : List Cell} (hfreed : ∀ c ∈ freed, c ∉ cells) :
    Spares cells heap (heap.freeAll freed) := by
  induction freed generalizing heap with
  | nil => exact spares_refl h
  | cons cell freed ih =>
      have hfirst := spares_free h (hfreed cell List.mem_cons_self)
      exact hfirst.trans (ih hfirst.bounded fun c hc => hfreed c (List.mem_cons_of_mem cell hc))

theorem spares_serviceFree (h : heap.Bounded) (old : Option (ServiceCell F M))
    (hold : ∀ service, old = some service → ∀ c ∈ namesOf service, c ∉ cells) :
    Spares cells heap (serviceFree heap old) := by
  cases old with
  | none => exact spares_refl h
  | some service =>
      have hnames := hold service rfl
      have hfirst := spares_free h (hnames _ List.mem_cons_self)
      exact hfirst.trans
        (spares_freeAll hfirst.bounded fun c hc => hnames c (List.mem_cons_of_mem _ hc))

end Spares

/-! ## One call -/

/-- What holds in every run: the marshal table has the marshals of the history
    under live keys, no other string is one of these keys, and the functions
    are registered. -/
structure Traced (gStrHash : Bytes → Nat) (S : Cells F M) (history : List (Op F M)) : Prop where
  bounded   : S.heap.Bounded
  marshals  : ∀ e ∈ S.marshalTable, ∃ signature, S.heap.text e.key = some signature
    ∧ e.hash = gStrHash signature ∧ marshalOf history signature = some e.value.mfunc
  complete  : ∀ signature marshal, marshalOf history signature = some marshal →
    ∃ e ∈ S.marshalTable, S.heap.text e.key = some signature
  names     : ∀ s ∈ S.serviceTable, ∀ c ∈ namesOf s.value,
    c < S.heap.next ∧ c ∉ S.marshalTable.map Entry.key
  functions : ∀ s ∈ S.serviceTable, ∀ f ∈ s.value.funcTable, Registered history f.value

/-- What the walk finds has the key. -/
theorem findNode_some {heap : Heap} {hash : Nat} {key : Bytes} {table : List (Entry α)}
    {e : Entry α} (h : findNode heap hash key table = some (some e)) :
    e ∈ table ∧ heap.text e.key = some key := by
  induction table with
  | nil => cases h
  | cons x table ih =>
      rw [findNode] at h
      split at h
      · split at h
        · cases h
        · next text htext =>
            split at h
            · next heq =>
                obtain rfl := Option.some.inj (Option.some.inj h)
                exact ⟨List.mem_cons_self, by rw [htext, heq]⟩
            · obtain ⟨hmem, hkey⟩ := ih h
              exact ⟨List.mem_cons_of_mem x hmem, hkey⟩
      · obtain ⟨hmem, hkey⟩ := ih h
        exact ⟨List.mem_cons_of_mem x hmem, hkey⟩

/-- What it does not find is not there. -/
theorem findNode_none {heap : Heap} {hash : Nat} {key : Bytes} {table : List (Entry α)}
    (h : findNode heap hash key table = some none) :
    ∀ e ∈ table, e.hash = hash → heap.text e.key ≠ some key := by
  induction table with
  | nil => exact fun e he => absurd he List.not_mem_nil
  | cons x table ih =>
      intro e he hhash hkey
      rw [findNode] at h
      rcases List.mem_cons.mp he with rfl | he
      · rw [if_pos hhash, hkey] at h
        simp at h
      · split at h
        · split at h
          · cases h
          · split at h
            · cases h
            · exact ih h e he hhash hkey
        · exact ih h e he hhash hkey

theorem lookup_mem {heap : Heap} {key : Bytes} {table : List (Entry α)} {value : α}
    (h : gHashTableLookup gStrHash heap table key = some (some value)) :
    ∃ e ∈ table, heap.text e.key = some key ∧ e.value = value := by
  obtain ⟨found, hfound, hvalue⟩ := Option.map_eq_some_iff.mp h
  obtain ⟨e, rfl, rfl⟩ := Option.map_eq_some_iff.mp hvalue
  obtain ⟨hmem, hkey⟩ := findNode_some hfound
  exact ⟨e, hmem, hkey, rfl⟩

/-- A table after an insertion has the new value and old ones. -/
theorem insert_values {heap : Heap} {table table' : List (Entry α)} {cell : Cell} {key : Bytes}
    {value : α} {old : Option α}
    (h : gHashTableInsert gStrHash heap table cell key value = some (table', old)) :
    (∀ e ∈ table', e.value = value ∨ ∃ x ∈ table, x.value = e.value)
      ∧ ∀ v, old = some v → ∃ x ∈ table, x.value = v := by
  rw [gHashTableInsert] at h
  split at h
  · cases h
  · obtain ⟨rfl, rfl⟩ := Prod.mk.inj (Option.some.inj h)
    constructor
    · intro e he
      rcases List.mem_cons.mp he with rfl | he
      · exact .inl rfl
      · exact .inr ⟨e, he, rfl⟩
    · intro v hv
      cases hv
  · next x hx =>
      obtain ⟨rfl, rfl⟩ := Prod.mk.inj (Option.some.inj h)
      refine ⟨?_, fun v hv => ⟨x, (findNode_some hx).1, Option.some.inj hv⟩⟩
      clear hx h
      induction table with
      | nil => exact fun e he => absurd he List.not_mem_nil
      | cons y table ih =>
          intro e he
          rw [setValue] at he
          split at he
          · rcases List.mem_cons.mp he with rfl | he
            · exact .inl rfl
            · exact .inr ⟨e, List.mem_cons_of_mem y he, rfl⟩
          · rcases List.mem_cons.mp he with rfl | he
            · exact .inr ⟨e, List.mem_cons_self, rfl⟩
            · rcases ih e he with hnew | ⟨z, hz, hsame⟩
              · exact .inl hnew
              · exact .inr ⟨z, List.mem_cons_of_mem y hz, hsame⟩

theorem remove_values {heap : Heap} {table table' : List (Entry α)} {key : Bytes} {old : Option α}
    (h : gHashTableRemove gStrHash heap table key = some (table', old)) :
    (∀ e ∈ table', e ∈ table) ∧ ∀ v, old = some v → ∃ x ∈ table, x.value = v := by
  rw [gHashTableRemove] at h
  split at h
  · cases h
  · obtain ⟨rfl, rfl⟩ := Prod.mk.inj (Option.some.inj h)
    constructor
    · exact fun e he => he
    · intro v hv
      cases hv
  · next x hx =>
      obtain ⟨rfl, rfl⟩ := Prod.mk.inj (Option.some.inj h)
      exact ⟨fun e he => List.mem_of_mem_eraseP he,
        fun v hv => ⟨x, (findNode_some hx).1, Option.some.inj hv⟩⟩

theorem setFuncTable_values {name : Cell} {table : List (Entry (FuncCell F M))}
    {services : List (Entry (ServiceCell F M))} :
    ∀ e ∈ setFuncTable name table services, e ∈ services ∨ e.value = ⟨name, table⟩ := by
  induction services with
  | nil => exact fun e he => absurd he List.not_mem_nil
  | cons x services ih =>
      intro e he
      rw [setFuncTable] at he
      split at he
      · next hname =>
          rcases List.mem_cons.mp he with rfl | he
          · exact .inr (by rw [hname])
          · exact .inl (List.mem_cons_of_mem x he)
      · rcases List.mem_cons.mp he with rfl | he
        · exact .inl List.mem_cons_self
        · rcases ih e he with hold | hnew
          · exact .inl (List.mem_cons_of_mem x hold)
          · exact .inr hnew

section Traced

variable {S S' : Cells F M} {history : List (Op F M)}

theorem Traced.key_live (h : Traced gStrHash S history) {c : Cell}
    (hc : c ∈ S.marshalTable.map Entry.key) : c < S.heap.next := by
  obtain ⟨e, he, rfl⟩ := List.mem_map.mp hc
  obtain ⟨signature, htext, -⟩ := h.marshals e he
  by_contra hle
  rw [h.bounded e.key (Nat.le_of_not_lt hle)] at htext
  cases htext

theorem Traced.next_fresh (h : Traced gStrHash S history) :
    S.heap.next ∉ S.marshalTable.map Entry.key :=
  fun hc => Nat.lt_irrefl _ (h.key_live hc)

/-- A call that leaves the marshal table alone. -/
theorem Traced.frame (h : Traced gStrHash S history) {op : Op F M}
    (hop : ∀ signature, marshalOf (op :: history) signature = marshalOf history signature)
    {heap : Heap} (hheap : Spares (S.marshalTable.map Entry.key) S.heap heap)
    {services : List (Entry (ServiceCell F M))}
    (hservices : ∀ s ∈ services, (∃ x ∈ S.serviceTable, x.value = s.value)
      ∨ (∀ c ∈ namesOf s.value, c < heap.next ∧ c ∉ S.marshalTable.map Entry.key)
        ∧ ∀ f ∈ s.value.funcTable, Registered (op :: history) f.value) :
    Traced gStrHash ⟨heap, S.marshalTable, services⟩ (op :: history) where
  bounded := hheap.bounded
  marshals := by
    intro e he
    obtain ⟨signature, htext, hhash, hmarshal⟩ := h.marshals e he
    exact ⟨signature, (hheap.text _ (List.mem_map_of_mem he)).trans htext, hhash,
      (hop signature).trans hmarshal⟩
  complete := by
    intro signature marshal hmarshal
    obtain ⟨e, he, htext⟩ := h.complete signature marshal ((hop signature).symm.trans hmarshal)
    exact ⟨e, he, (hheap.text _ (List.mem_map_of_mem he)).trans htext⟩
  names := by
    intro s hs c hc
    rcases hservices s hs with ⟨x, hx, hsame⟩ | ⟨hnames, -⟩
    · obtain ⟨hlt, hkey⟩ := h.names x hx c (hsame ▸ hc)
      exact ⟨Nat.lt_of_lt_of_le hlt hheap.next, hkey⟩
    · exact hnames c hc
  functions := by
    intro s hs f hf
    rcases hservices s hs with ⟨x, hx, hsame⟩ | ⟨-, hfuncs⟩
    · exact (h.functions x hx f (hsame ▸ hf)).later op
    · exact hfuncs f hf

theorem Traced.createService (h : Traced gStrHash S history) {svcName : Bytes}
    (hstep : createService gStrHash S svcName = some S') :
    Traced gStrHash S' (.createService svcName :: history) := by
  rw [SearpcRegistryCells.createService] at hstep
  split at hstep
  · cases hstep
  · obtain rfl := Option.some.inj hstep
    exact h.frame (fun _ => rfl) (spares_refl h.bounded) fun s hs => .inl ⟨s, hs, rfl⟩
  · have hdup := spares_strdup h.bounded h.next_fresh svcName
    dsimp only at hstep
    split at hstep
    · cases hstep
    · next table old hins =>
        obtain rfl := Option.some.inj hstep
        obtain ⟨hvalues, hold⟩ := insert_values hins
        have hfree := spares_serviceFree hdup.bounded old fun service heq c hc => by
          obtain ⟨x, hx, rfl⟩ := hold service heq
          exact (h.names x hx c hc).2
        refine h.frame (fun _ => rfl) (hdup.trans hfree) fun s hs => ?_
        rcases hvalues s hs with hnew | hsame
        · right
          rw [hnew]
          refine ⟨fun c hc => ?_, fun f hf => absurd hf List.not_mem_nil⟩
          obtain rfl := List.mem_singleton.mp hc
          exact ⟨Nat.lt_of_lt_of_le (Nat.lt_succ_self _) hfree.next, h.next_fresh⟩
        · exact .inl hsame

theorem Traced.removeService (h : Traced gStrHash S history) {svcName : Bytes}
    (hstep : removeService gStrHash S svcName = some S') :
    Traced gStrHash S' (.removeService svcName :: history) := by
  rw [SearpcRegistryCells.removeService] at hstep
  split at hstep
  · cases hstep
  · next table old hrem =>
      obtain rfl := Option.some.inj hstep
      obtain ⟨hmem, hold⟩ := remove_values hrem
      have hfree := spares_serviceFree h.bounded old fun service heq c hc => by
        obtain ⟨x, hx, rfl⟩ := hold service heq
        exact (h.names x hx c hc).2
      exact h.frame (fun _ => rfl) hfree fun s hs => .inl ⟨s, hmem s hs, rfl⟩

/-- A marshal is registered under a signature that had none. -/
theorem Traced.registerMarshal (h : Traced gStrHash S history) {signature : Bytes} {marshal : M}
    {b : Bool} (hstep : registerMarshal gStrHash S signature marshal = some (b, S')) :
    Traced gStrHash S' (.registerMarshal signature marshal :: history) := by
  have hdup := spares_strdup h.bounded h.next_fresh signature
  rw [SearpcRegistryCells.registerMarshal] at hstep
  split at hstep
  · cases hstep
  · -- the signature has a marshal, and keeps it
    next mitem hlookup =>
      obtain ⟨-, rfl⟩ := Prod.mk.inj (Option.some.inj hstep)
      obtain ⟨e, he, htext, -⟩ := lookup_mem hlookup
      rw [hdup.text _ (List.mem_map_of_mem he)] at htext
      have hkept : ∀ key, marshalOf (.registerMarshal signature marshal :: history) key
          = marshalOf history key := by
        intro key
        obtain ⟨signature', htext', -, hmarshal⟩ := h.marshals e he
        obtain rfl := Option.some.inj (htext.symm.trans htext')
        rw [marshalOf]
        by_cases hkey : signature = key
        · subst hkey
          rw [hmarshal]
          rfl
        · rw [if_neg hkey, Option.or_none]
      exact h.frame hkept (hdup.trans (spares_free hdup.bounded h.next_fresh))
        fun s hs => .inl ⟨s, hs, rfl⟩
  · next hlookup =>
      have hnode : findNode (S.heap.strdup signature) (gStrHash signature) signature
          S.marshalTable = some none := by
        rw [gHashTableLookup, Option.map_eq_some_iff] at hlookup
        obtain ⟨found, hfound, hnone⟩ := hlookup
        rw [hfound, Option.map_eq_none_iff.mp hnone]
      rw [gHashTableInsert, hnode] at hstep
      obtain ⟨-, rfl⟩ := Prod.mk.inj (Option.some.inj hstep)
      -- nor has the history one
      have hnone : marshalOf history signature = none := by
        by_contra hsome
        obtain ⟨marshal', hmarshal⟩ := Option.ne_none_iff_exists'.mp hsome
        obtain ⟨e, he, htext⟩ := h.complete signature marshal' hmarshal
        obtain ⟨signature', htext', hhash, -⟩ := h.marshals e he
        obtain rfl := Option.some.inj (htext.symm.trans htext')
        exact findNode_none hnode e he hhash
          ((hdup.text _ (List.mem_map_of_mem he)).trans htext)
      constructor
      case bounded => exact hdup.bounded
      case marshals =>
          intro e he
          rcases List.mem_cons.mp he with rfl | he
          · refine ⟨signature, text_strdup_self _ _, rfl, ?_⟩
            rw [marshalOf, hnone, if_pos rfl]
            rfl
          · obtain ⟨signature', htext, hhash, hmarshal⟩ := h.marshals e he
            exact ⟨signature', (hdup.text _ (List.mem_map_of_mem he)).trans htext, hhash,
              marshalOf_append hmarshal [.registerMarshal signature marshal]⟩
      case complete =>
          intro key marshal' hmarshal
          rw [marshalOf] at hmarshal
          cases hold : marshalOf history key with
          | some marshal'' =>
              obtain ⟨e, he, htext⟩ := h.complete key marshal'' hold
              exact ⟨e, List.mem_cons_of_mem _ he,
                (hdup.text _ (List.mem_map_of_mem he)).trans htext⟩
          | none =>
              rw [hold, Option.none_or] at hmarshal
              split at hmarshal
              · next hkey =>
                  refine ⟨_, List.mem_cons_self, ?_⟩
                  rw [← hkey]
                  exact text_strdup_self _ _
              · cases hmarshal
      case names =>
          intro s hs c hc
          obtain ⟨hlt, hkey⟩ := h.names s hs c hc
          refine ⟨Nat.lt_succ_of_lt hlt, fun hmem => ?_⟩
          rcases List.mem_cons.mp hmem with rfl | hmem
          · exact Nat.lt_irrefl _ hlt
          · exact hkey hmem
      case functions =>
          exact fun s hs f hf => (h.functions s hs f hf).later _

/-- A function gets the marshal of its signature. -/
theorem Traced.registerFunction (h : Traced gStrHash S history) {svcName fname signature : Bytes}
    {func : F} {b : Bool}
    (hstep : registerFunction gStrHash S svcName func fname signature = some (b, S')) :
    Traced gStrHash S' (.registerFunction svcName func fname signature :: history) := by
  have hdup := spares_strdup h.bounded h.next_fresh signature
  rw [SearpcRegistryCells.registerFunction] at hstep
  split at hstep
  · cases hstep
  · obtain ⟨-, rfl⟩ := Prod.mk.inj (Option.some.inj hstep)
    exact h.frame (fun _ => rfl) hdup fun s hs => .inl ⟨s, hs, rfl⟩
  · next service hservice =>
      split at hstep
      · cases hstep
      · obtain ⟨-, rfl⟩ := Prod.mk.inj (Option.some.inj hstep)
        exact h.frame (fun _ => rfl) (hdup.trans (spares_free hdup.bounded h.next_fresh))
          fun s hs => .inl ⟨s, hs, rfl⟩
      · next mitem hmitem =>
          dsimp only at hstep
          split at hstep
          · cases hstep
          · next table old hins =>
              obtain ⟨-, rfl⟩ := Prod.mk.inj (Option.some.inj hstep)
              obtain ⟨x, hx, -, rfl⟩ := lookup_mem hservice
              obtain ⟨e, he, htext, rfl⟩ := lookup_mem hmitem
              rw [hdup.text _ (List.mem_map_of_mem he)] at htext
              obtain ⟨signature', htext', -, hmarshal⟩ := h.marshals e he
              obtain rfl := Option.some.inj (htext.symm.trans htext')
              obtain ⟨hvalues, hold⟩ := insert_values hins
              have hcell : (S.heap.strdup signature).next ∉ S.marshalTable.map Entry.key :=
                fun hc => absurd (h.key_live hc) (Nat.not_lt_of_le (Nat.le_succ _))
              have hdup' := spares_strdup hdup.bounded hcell fname
              have hitem : Spares (S.marshalTable.map Entry.key)
                  ((S.heap.strdup signature).strdup fname)
                  (funcItemFree ((S.heap.strdup signature).strdup fname) old) := by
                cases old with
                | none => exact spares_refl hdup'.bounded
                | some item =>
                    obtain ⟨y, hy, rfl⟩ := hold item rfl
                    exact spares_free hdup'.bounded
                      (h.names x hx _ (List.mem_cons_of_mem _ (List.mem_map_of_mem hy))).2
              have hfree := spares_free hitem.bounded h.next_fresh
              refine h.frame (fun _ => rfl) (((hdup.trans hdup').trans hitem).trans hfree)
                fun s hs => ?_
              rcases setFuncTable_values s hs with hold' | hnew
              · exact .inl ⟨s, hold', rfl⟩
              · right
                have hnext := Nat.le_trans hitem.next hfree.next
                have hgrown := Nat.le_trans (Nat.le_trans hdup.next hdup'.next) hnext
                rw [hnew]
                refine ⟨fun c hc => ?_, fun f hf => ?_⟩
                · rcases List.mem_cons.mp hc with rfl | hc
                  · obtain ⟨hlt, hkey⟩ := h.names x hx _ List.mem_cons_self
                    exact ⟨Nat.lt_of_lt_of_le hlt hgrown, hkey⟩
                  · obtain ⟨f, hf, rfl⟩ := List.mem_map.mp hc
                    rcases hvalues f hf with hvalue | ⟨y, hy, hsame⟩
                    · rw [hvalue]
                      exact ⟨Nat.lt_of_lt_of_le (Nat.lt_succ_self _) hnext, hcell⟩
                    · rw [← hsame]
                      obtain ⟨hlt, hkey⟩ := h.names x hx _
                        (List.mem_cons_of_mem _ (List.mem_map_of_mem hy))
                      exact ⟨Nat.lt_of_lt_of_le hlt hgrown, hkey⟩
                · rcases hvalues f hf with hvalue | ⟨y, hy, hsame⟩
                  · rw [hvalue]
                    exact ⟨svcName, fname, signature, List.mem_cons_self, hmarshal⟩
                  · rw [← hsame]
                    exact (h.functions x hx y hy).later _

end Traced

/-! ## Whole runs -/

/-- **EVERY RUN IS TRACED**, whatever it registers again. -/
theorem afterCells_traced {history : List (Op F M)} {S : Cells F M}
    (h : afterCells gStrHash history = some S) : Traced gStrHash S history := by
  induction history generalizing S with
  | nil =>
      obtain rfl := Option.some.inj h
      constructor
      case bounded => exact fun _ _ => rfl
      case marshals => exact fun e he => absurd he List.not_mem_nil
      case complete =>
          intro signature marshal hmarshal
          cases hmarshal
      case names => exact fun s hs => absurd hs List.not_mem_nil
      case functions => exact fun s hs => absurd hs List.not_mem_nil
  | cons op history ih =>
      obtain ⟨S₀, hpast, hstep⟩ := Option.bind_eq_some_iff.mp h
      have htraced := ih hpast
      cases op with
      | createService svcName => exact htraced.createService hstep
      | removeService svcName => exact htraced.removeService hstep
      | registerMarshal signature marshal =>
          obtain ⟨⟨b, S'⟩, hcall, rfl⟩ := Option.map_eq_some_iff.mp hstep
          exact htraced.registerMarshal hcall
      | registerFunction svcName func fname signature =>
          obtain ⟨⟨b, S'⟩, hcall, rfl⟩ := Option.map_eq_some_iff.mp hstep
          exact htraced.registerFunction hcall

/-- A call that runs something runs a function of a table through the marshal
    beside it. -/
theorem callFunction_ran {S : Cells F M} {J : Jansson} {mfunc : M → F → Json → ρ}
    {slowLog : Option SlowLog} {clock : Clock} {svcName text : Bytes} {run : ρ}
    (h : (callFunction gStrHash J S mfunc slowLog clock svcName text).map Called.outcome
      = some (.ran run)) :
    ∃ s ∈ S.serviceTable, ∃ f ∈ s.value.funcTable, ∃ array,
      run = mfunc f.value.marshal.mfunc f.value.func array := by
  obtain ⟨called, hcalled, hran⟩ := Option.map_eq_some_iff.mp h
  rw [callFunction] at hcalled
  split at hcalled
  · cases hcalled
  · obtain rfl := Option.some.inj hcalled
    cases hran
  · next service hservice =>
      obtain ⟨s, hs, -, rfl⟩ := lookup_mem hservice
      split at hcalled
      · obtain rfl := Option.some.inj hcalled
        cases hran
      · next array _ =>
          split at hcalled
          · obtain rfl := Option.some.inj hcalled
            cases hran
          · split at hcalled
            · cases hcalled
            · obtain rfl := Option.some.inj hcalled
              cases hran
            · next fitem hfitem =>
                obtain ⟨f, hf, -, rfl⟩ := lookup_mem hfitem
                refine ⟨s, hs, f, hf, array, ?_⟩
                split at hcalled
                · obtain rfl := Option.some.inj hcalled
                  exact (Outcome.ran.inj hran).symm
                · split at hcalled
                  · cases hcalled
                  · obtain rfl := Option.some.inj hcalled
                    exact (Outcome.ran.inj hran).symm

/-- **A MARSHAL IS THAT OF A SIGNATURE**: whatever a run registers again, a function
    that is run is run by the marshal of a signature it was registered with. -/
theorem ran_registered {history : List (Op F M)} {S : Cells F M}
    (hS : afterCells gStrHash history = some S) {J : Jansson} {slowLog : Option SlowLog}
    {clock : Clock} {svcName text : Bytes} {marshal : M} {func : F}
    (h : (callFunction gStrHash J S (fun m f _ => (m, f)) slowLog clock svcName text).map
      Called.outcome = some (.ran (marshal, func))) :
    ∃ svcName fname signature, Op.registerFunction svcName func fname signature ∈ history
      ∧ marshalOf history signature = some marshal := by
  obtain ⟨s, hs, f, hf, -, hrun⟩ := callFunction_ran h
  obtain ⟨rfl, rfl⟩ := Prod.mk.inj hrun
  exact (afterCells_traced hS).functions s hs f hf

end SearpcRegistryCells
