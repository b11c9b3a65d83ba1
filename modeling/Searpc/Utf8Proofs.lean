import Mathlib.Data.List.TakeWhile
import Searpc.JsonTextProofs

/-! # UTF-8 — whole characters and cuts

    The checker of `JsonValueProofs` walks a byte string once.  Here is what
    happens at a seam: behind well-formed text the walk starts afresh, so
    putting well-formed text in front never matters, and cutting text after
    some bytes keeps it well-formed exactly when the cut is between two
    characters.  The encoding of a scalar value is well-formed, no encoding is
    the beginning of another, and printed JSON is UTF-8 when its strings are. -/

namespace Utf8Text

open ByteMemory JsonValue

/-! ## Seams and cuts -/

/-- **SEAMS**: behind bytes that pay all owed continuations, the check starts
    afresh. -/
theorem utf8Run_append {n : Nat} {lo hi : UInt8} {p : Bytes} (s : Bytes)
    (h : utf8Run n lo hi p = true) : utf8Run n lo hi (p ++ s) = utf8Valid s := by
  -- induction on the bytes in front, one case for each branch of the checker
  fun_induction utf8Run n lo hi p with
  | case1 => cases s <;> rfl
  | case2 => cases h
  | case3 lo hi b p hb ih =>
      rw [List.cons_append, utf8Run, if_pos hb]
      exact ih h
  | case4 lo hi b p h1 hb ih =>
      rw [List.cons_append, utf8Run, if_neg h1, if_pos hb]
      exact ih h
  | case5 lo hi p h1 h2 ih =>
      rw [List.cons_append, utf8Run, if_neg h1, if_neg h2, if_pos rfl]
      exact ih h
  | case6 lo hi p h1 h2 h3 ih =>
      rw [List.cons_append, utf8Run, if_neg h1, if_neg h2, if_neg h3, if_pos rfl]
      exact ih h
  | case7 lo hi b p h1 h2 h3 h4 hb ih =>
      rw [List.cons_append, utf8Run, if_neg h1, if_neg h2, if_neg h3, if_neg h4, if_pos hb]
      exact ih h
  | case8 lo hi p h1 h2 h3 h4 h5 ih =>
      rw [List.cons_append, utf8Run, if_neg h1, if_neg h2, if_neg h3, if_neg h4, if_neg h5,
        if_pos rfl]
      exact ih h
  | case9 lo hi b p h1 h2 h3 h4 h5 h6 hb ih =>
      rw [List.cons_append, utf8Run, if_neg h1, if_neg h2, if_neg h3, if_neg h4, if_neg h5,
        if_neg h6, if_pos hb]
      exact ih h
  | case10 lo hi p h1 h2 h3 h4 h5 h6 h7 ih =>
      rw [List.cons_append, utf8Run, if_neg h1, if_neg h2, if_neg h3, if_neg h4, if_neg h5,
        if_neg h6, if_neg h7, if_pos rfl]
      exact ih h
  | case11 => cases h
  | case12 n lo hi b p hb ih =>
      rw [List.cons_append, utf8Run, if_pos hb]
      exact ih h
  | case13 => cases h

/-- Well-formed text in front never matters. -/
theorem utf8Valid_append {p : Bytes} (s : Bytes) (h : utf8Valid p = true) :
    utf8Valid (p ++ s) = utf8Valid s := utf8Run_append s h

/-- **CUTS**: a message made of a fixed beginning, a name and a fixed end, cut
    after `n` bytes, is well-formed exactly when the cut falls between two
    characters of the name. -/
theorem utf8Valid_take_message {before name after : Bytes} (n : Nat)
    (hbefore : utf8Valid before = true) (hname : utf8Valid name = true)
    (hafter : ∀ k, utf8Valid (after.take k) = true) :
    utf8Valid ((before ++ name ++ after).take (before.length + n))
      = utf8Valid (name.take n) := by
  have hsplit : (before ++ name ++ after).take (before.length + n)
      = before ++ (name.take n ++ after.take (n - name.length)) := by
    rw [List.append_assoc, List.take_length_add_append, List.take_append]
  rw [hsplit, utf8Valid_append _ hbefore]
  rcases Nat.le_total n name.length with hle | hle
  · rw [Nat.sub_eq_zero_of_le hle, List.take_zero, List.append_nil]
  · rw [List.take_of_length_le hle, utf8Valid_append _ hname, hname, hafter]

theorem zero_not_mem_cstr (s : Bytes) : (0 : UInt8) ∉ cstr s := by
  intro h
  have hne := List.mem_takeWhile_imp h
  exact absurd hne (by decide)

/-! ## Code points -/

open JsonText

/-- A Unicode scalar value. -/
def Scalar (u : Nat) : Prop := u < 0xD800 ∨ 0xDFFF < u ∧ u < 0x110000

theorem scalar_toNat (c : Char) : Scalar c.toNat := c.valid

/-- A byte between two bounds, by its number. -/
private theorem byte_between {lo hi : UInt8} {n : Nat} (hlo : lo.toNat ≤ n) (hhi : n ≤ hi.toNat) :
    lo ≤ UInt8.ofNat n ∧ UInt8.ofNat n ≤ hi := by
  have h := hi.toNat_lt
  have hn : (UInt8.ofNat n).toNat = n := by
    rw [UInt8.toNat_ofNat']
    omega
  exact ⟨UInt8.le_iff_toNat_le.mpr (by omega), UInt8.le_iff_toNat_le.mpr (by omega)⟩

/-- A continuation byte that is owed and within the bounds. -/
theorem utf8Run_owed {n k : Nat} {lo hi : UInt8} (hlo : lo.toNat ≤ k) (hhi : k ≤ hi.toNat)
    (s : Bytes) : utf8Run (n + 1) lo hi (UInt8.ofNat k :: s) = utf8Run n 0x80 0xBF s := by
  rw [utf8Run, if_pos (byte_between hlo hhi)]

/-- Lead bytes: what each owes, and the bounds of the first byte behind it. -/
private theorem utf8Valid_lead2 {q : Nat} (h2 : 2 ≤ q) (h32 : q < 32) (s : Bytes) :
    utf8Valid (UInt8.ofNat (0xC0 + q) :: s) = utf8Run 1 0x80 0xBF s := by
  interval_cases q <;> rfl

private theorem utf8Valid_lead3 {q : Nat} (h : q < 16) (s : Bytes) :
    utf8Valid (UInt8.ofNat (0xE0 + q) :: s)
      = utf8Run 2 (if q = 0 then 0xA0 else 0x80) (if q = 13 then 0x9F else 0xBF) s := by
  interval_cases q <;> rfl

private theorem utf8Valid_lead4 {q : Nat} (h : q < 5) (s : Bytes) :
    utf8Valid (UInt8.ofNat (0xF0 + q) :: s)
      = utf8Run 3 (if q = 0 then 0x90 else 0x80) (if q = 4 then 0x8F else 0xBF) s := by
  interval_cases q <;> rfl

/-- The encoding of a scalar value is well-formed. -/
theorem utf8Valid_utf8Encode {u : Nat} (h : Scalar u) : utf8Valid (utf8Encode u) = true := by
  have h80 : (0x80 : UInt8).toNat = 0x80 := rfl
  have hBF : (0xBF : UInt8).toNat = 0xBF := rfl
  rw [Scalar] at h
  by_cases h1 : u < 0x80
  · rw [utf8Encode, if_pos h1]
    interval_cases u <;> rfl
  by_cases h2 : u < 0x800
  · rw [utf8Encode, if_neg h1, if_pos h2, utf8Valid_lead2 (by omega) (by omega),
      utf8Run_owed (by omega) (by omega)]
    rfl
  by_cases h3 : u < 0x10000
  · rw [utf8Encode, if_neg h1, if_neg h2, if_pos h3, utf8Valid_lead3 (by omega), utf8Run_owed,
      utf8Run_owed (by omega) (by omega)]
    · rfl
    · -- no overlong form
      by_cases h0 : u / 4096 = 0
      · rw [if_pos h0, show (0xA0 : UInt8).toNat = 0xA0 from rfl]
        omega
      · rw [if_neg h0]
        omega
    · -- no surrogate
      by_cases h13 : u / 4096 = 13
      · rw [if_pos h13, show (0x9F : UInt8).toNat = 0x9F from rfl]
        omega
      · rw [if_neg h13]
        omega
  · rw [utf8Encode, if_neg h1, if_neg h2, if_neg h3, utf8Valid_lead4 (by omega), utf8Run_owed,
      utf8Run_owed (by omega) (by omega), utf8Run_owed (by omega) (by omega)]
    · rfl
    · by_cases h0 : u / 262144 = 0
      · rw [if_pos h0, show (0x90 : UInt8).toNat = 0x90 from rfl]
        omega
      · rw [if_neg h0]
        omega
    · by_cases h4 : u / 262144 = 4
      · rw [if_pos h4, show (0x8F : UInt8).toNat = 0x8F from rfl]
        omega
      · rw [if_neg h4]
        omega

/-- The code point at the front of encoded text. -/
def utf8Head : Bytes → Option (Nat × Bytes)
  | b :: s =>
      if b.toNat < 0x80 then some (b.toNat, s)
      else if b.toNat < 0xE0 then
        match s with
        | b₁ :: s => some ((b.toNat - 0xC0) * 64 + (b₁.toNat - 0x80), s)
        | _ => none
      else if b.toNat < 0xF0 then
        match s with
        | b₁ :: b₂ :: s =>
            some ((b.toNat - 0xE0) * 4096 + (b₁.toNat - 0x80) * 64 + (b₂.toNat - 0x80), s)
        | _ => none
      else
        match s with
        | b₁ :: b₂ :: b₃ :: s =>
            some ((b.toNat - 0xF0) * 262144 + (b₁.toNat - 0x80) * 4096
              + (b₂.toNat - 0x80) * 64 + (b₃.toNat - 0x80), s)
        | _ => none
  | [] => none

/-- **NO ENCODING BEGINS ANOTHER**: the code point at the front is read off
    whatever follows. -/
theorem utf8Head_utf8Encode {u : Nat} (h : Scalar u) (s : Bytes) :
    utf8Head (utf8Encode u ++ s) = some (u, s) := by
  have hnat : ∀ n, n < 256 → (UInt8.ofNat n).toNat = n := by
    intro n hn
    rw [UInt8.toNat_ofNat']
    omega
  rw [Scalar] at h
  by_cases h1 : u < 0x80
  · rw [utf8Encode, if_pos h1]
    simp only [List.cons_append, List.nil_append, utf8Head, hnat u (by omega), if_pos h1]
  by_cases h2 : u < 0x800
  · rw [utf8Encode, if_neg h1, if_pos h2]
    simp only [List.cons_append, List.nil_append, utf8Head, hnat (0xC0 + u / 64) (by omega),
      hnat (0x80 + u % 64) (by omega)]
    rw [if_neg (by omega), if_pos (by omega)]
    simp only [Option.some.injEq, Prod.mk.injEq, and_true]
    omega
  by_cases h3 : u < 0x10000
  · rw [utf8Encode, if_neg h1, if_neg h2, if_pos h3]
    simp only [List.cons_append, List.nil_append, utf8Head, hnat (0xE0 + u / 4096) (by omega),
      hnat (0x80 + u / 64 % 64) (by omega), hnat (0x80 + u % 64) (by omega)]
    rw [if_neg (by omega), if_neg (by omega), if_pos (by omega)]
    simp only [Option.some.injEq, Prod.mk.injEq, and_true]
    omega
  · rw [utf8Encode, if_neg h1, if_neg h2, if_neg h3]
    simp only [List.cons_append, List.nil_append, utf8Head, hnat (0xF0 + u / 262144) (by omega),
      hnat (0x80 + u / 4096 % 64) (by omega), hnat (0x80 + u / 64 % 64) (by omega),
      hnat (0x80 + u % 64) (by omega)]
    rw [if_neg (by omega), if_neg (by omega), if_neg (by omega)]
    simp only [Option.some.injEq, Prod.mk.injEq, and_true]
    omega

/-! ## Strings of code points -/

/-- The UTF-8 form of a string. -/
def utf8 (s : List Char) : Bytes := s.flatMap (fun c => utf8Encode c.toNat)

@[simp] theorem utf8_nil : utf8 [] = [] := rfl

theorem utf8_cons (c : Char) (s : List Char) : utf8 (c :: s) = utf8Encode c.toNat ++ utf8 s :=
  List.flatMap_cons

@[simp] theorem utf8_append (s t : List Char) : utf8 (s ++ t) = utf8 s ++ utf8 t :=
  List.flatMap_append

theorem utf8Valid_utf8 (s : List Char) : utf8Valid (utf8 s) = true := by
  induction s with
  | nil => rfl
  | cons c s ih =>
      rw [utf8_cons, utf8Valid_append _ (utf8Valid_utf8Encode (scalar_toNat c)), ih]

/-- Different strings have different encodings. -/
theorem utf8_injective : Function.Injective utf8 := by
  intro s
  induction s with
  | nil =>
      intro t h
      cases t with
      | nil => rfl
      | cons d t =>
          have hhead := utf8Head_utf8Encode (scalar_toNat d) (utf8 t)
          rw [← utf8_cons, ← h] at hhead
          cases hhead
  | cons c s ih =>
      intro t h
      have hhead := utf8Head_utf8Encode (scalar_toNat c) (utf8 s)
      rw [← utf8_cons, h] at hhead
      cases t with
      | nil => cases hhead
      | cons d t =>
          rw [utf8_cons, utf8Head_utf8Encode (scalar_toNat d), Option.some.injEq,
            Prod.mk.injEq] at hhead
          rw [ih hhead.2.symm, Char.toNat_inj.mp hhead.1]

/-- A byte of an encoding is zero only for the character NUL. -/
theorem zero_not_mem_utf8 {s : List Char} (h : Char.ofNat 0 ∉ s) : (0 : UInt8) ∉ utf8 s := by
  intro hmem
  obtain ⟨c, hc, hzero⟩ := List.mem_flatMap.mp hmem
  have hne : c.toNat ≠ 0 := by
    intro h0
    refine h ?_
    rw [← h0, Char.ofNat_toNat]
    exact hc
  have hbyte : ∀ n, 0 < n → n < 256 → (0 : UInt8) ≠ UInt8.ofNat n := by
    intro n hpos hlt heq
    have hnat := congrArg UInt8.toNat heq
    rw [UInt8.toNat_ofNat'] at hnat
    have hz : (0 : UInt8).toNat = 0 := rfl
    omega
  have hscalar := scalar_toNat c
  rw [Scalar] at hscalar
  rw [utf8Encode] at hzero
  split_ifs at hzero with h1 h2 h3
  · rw [List.mem_singleton] at hzero
    exact hbyte _ (by omega) (by omega) hzero
  · simp only [List.mem_cons, List.not_mem_nil, or_false] at hzero
    rcases hzero with hzero | hzero
    · exact hbyte _ (by omega) (by omega) hzero
    · exact hbyte _ (by omega) (by omega) hzero
  · simp only [List.mem_cons, List.not_mem_nil, or_false] at hzero
    rcases hzero with hzero | hzero | hzero
    · exact hbyte _ (by omega) (by omega) hzero
    · exact hbyte _ (by omega) (by omega) hzero
    · exact hbyte _ (by omega) (by omega) hzero
  · simp only [List.mem_cons, List.not_mem_nil, or_false] at hzero
    rcases hzero with hzero | hzero | hzero | hzero
    · exact hbyte _ (by omega) (by omega) hzero
    · exact hbyte _ (by omega) (by omega) hzero
    · exact hbyte _ (by omega) (by omega) hzero
    · exact hbyte _ (by omega) (by omega) hzero

/-! ## Printed text -/

theorem utf8Valid_cons {b : UInt8} (h : b < 0x80) (s : Bytes) :
    utf8Valid (b :: s) = utf8Valid s := by
  rw [utf8Valid, utf8Run, if_pos h]
  rfl

theorem utf8Valid_ascii {s : Bytes} (h : ∀ b ∈ s, b < 0x80) : utf8Valid s = true := by
  induction s with
  | nil => rfl
  | cons b s ih =>
      rw [utf8Valid_cons (h b List.mem_cons_self)]
      exact ih (fun c hc => h c (List.mem_cons_of_mem b hc))

/-- What is escaped is ASCII, and so is its escape. -/
theorem escapeByte_cases (b : UInt8) :
    (b < 0x80 ∧ utf8Valid (escapeByte b) = true) ∨ escapeByte b = [b] := by
  have hb := b.toNat_lt
  by_cases hlt : b < 0x80
  · left
    refine ⟨hlt, ?_⟩
    have hn : b.toNat < 0x80 := UInt8.lt_iff_toNat_lt.mp hlt
    rw [← UInt8.ofNat_toNat (x := b)]
    generalize b.toNat = n at hn
    interval_cases n <;> rfl
  · right
    have hne : ∀ c : UInt8, c < 0x80 → b ≠ c := fun c hc h => hlt (h ▸ hc)
    have h20 : ¬ b < 0x20 := fun h => hlt (UInt8.lt_trans h (by decide))
    simp only [escapeByte, if_neg (hne 0x22 (by decide)), if_neg (hne 0x5C (by decide)),
      if_neg (hne 0x08 (by decide)), if_neg (hne 0x0C (by decide)), if_neg (hne 0x0A (by decide)),
      if_neg (hne 0x0D (by decide)), if_neg (hne 0x09 (by decide)), if_neg h20]

/-- Escaping keeps text well-formed: it replaces ASCII by ASCII and leaves the
    bytes of longer characters alone. -/
theorem utf8Run_escape :
    ∀ (s : Bytes) (n : Nat) (lo hi : UInt8), 0x80 ≤ lo → utf8Run n lo hi s = true →
      utf8Run n lo hi (s.flatMap escapeByte) = true := by
  intro s
  induction s with
  | nil => exact fun n lo hi _ h => h
  | cons b s ih =>
      intro n lo hi hlo h
      rw [List.flatMap_cons]
      rcases escapeByte_cases b with ⟨hascii, hvalid⟩ | hself
      · cases n with
        | zero =>
            rw [utf8Run, if_pos hascii] at h
            have hrest := ih 0 0x80 0xBF (by decide) h
            cases hesc : escapeByte b ++ s.flatMap escapeByte with
            | nil => rfl
            | cons c t =>
                -- between characters the bounds play no role
                have heq : utf8Run 0 lo hi (c :: t) = utf8Valid (c :: t) := by
                  rw [utf8Valid, utf8Run, utf8Run]
                rw [heq, ← hesc, utf8Valid_append _ hvalid]
                exact hrest
        | succ n =>
            rw [utf8Run] at h
            split_ifs at h with hbound
            exact absurd (UInt8.lt_of_le_of_lt (UInt8.le_trans hlo hbound.1) hascii)
              (UInt8.lt_irrefl _)
      · rw [hself, List.singleton_append]
        cases n with
        | zero =>
            rw [utf8Run] at h ⊢
            split_ifs at h ⊢ <;> exact ih _ _ _ (by decide) h
        | succ n =>
            rw [utf8Run] at h ⊢
            split_ifs at h ⊢
            exact ih _ _ _ (by decide) h

theorem utf8Valid_dumpStr {s : Bytes} (h : utf8Valid s = true) :
    utf8Valid (dumpStr s) = true := by
  rw [dumpStr, utf8Valid_cons (by decide),
    utf8Valid_append _ (utf8Run_escape s 0 0x80 0xBF (by decide) h)]
  rfl

/-- Digits and the sign. -/
theorem dumpInt_ascii (i : Int) : ∀ b ∈ dumpInt i, b < 0x80 := by
  have hdigits : ∀ n, ∀ b ∈ decimal n, b < 0x80 := by
    intro n b hb
    have hd := decimalAux_digits n n [] (fun b hb => absurd hb List.not_mem_nil) b hb
    simp only [isDigit, Bool.and_eq_true, decide_eq_true_eq] at hd
    exact UInt8.lt_of_le_of_lt hd.2 (by decide)
  intro b hb
  rw [dumpInt] at hb
  split_ifs at hb with hneg
  · rcases List.mem_cons.mp hb with rfl | hb
    · decide
    · exact hdigits _ b hb
  · exact hdigits _ b hb

theorem utf8Valid_comma (c : Bool) (s : Bytes) : utf8Valid (comma c ++ s) = utf8Valid s :=
  utf8Valid_append s (by cases c <;> rfl)

theorem utf8Valid_colon (c : Bool) (s : Bytes) : utf8Valid (colon c ++ s) = utf8Valid s :=
  utf8Valid_append s (by cases c <;> rfl)

mutual
/-- **PRINTED TEXT IS UTF-8**. -/
theorem utf8Valid_dump (c : Bool) : ∀ v : Json, Encodable v → utf8Valid (dump c v) = true
  | .null, _ => rfl
  | .bool true, _ => rfl
  | .bool false, _ => rfl
  | .int i, _ => utf8Valid_ascii (dumpInt_ascii i)
  | .real _, h => False.elim h
  | .str _, h => utf8Valid_dumpStr h.1
  | .arr [], _ => rfl
  | .arr (v :: vs), h => by
      rw [dump, utf8Valid_cons (by decide), utf8Valid_append _ (utf8Valid_dump c v h.1)]
      exact utf8Valid_dumpElems c vs h.2
  | .obj [], _ => rfl
  | .obj ((k, v) :: ms), h => by
      rw [dump, utf8Valid_cons (by decide), List.append_assoc, List.append_assoc,
        utf8Valid_append _ (utf8Valid_dumpStr h.1.1.1), utf8Valid_colon,
        utf8Valid_append _ (utf8Valid_dump c v h.1.2.1)]
      exact utf8Valid_dumpMembers c ms h.1.2.2

theorem utf8Valid_dumpElems (c : Bool) :
    ∀ vs : List Json, EncodableList vs → utf8Valid (dumpElems c vs) = true
  | [], _ => rfl
  | v :: vs, h => by
      rw [dumpElems, List.append_assoc, utf8Valid_comma,
        utf8Valid_append _ (utf8Valid_dump c v h.1)]
      exact utf8Valid_dumpElems c vs h.2

theorem utf8Valid_dumpMembers (c : Bool) :
    ∀ ms : List (Bytes × Json), EncodableMembers ms → utf8Valid (dumpMembers c ms) = true
  | [], _ => rfl
  | (k, v) :: ms, h => by
      rw [dumpMembers, List.append_assoc, List.append_assoc, List.append_assoc, utf8Valid_comma,
        utf8Valid_append _ (utf8Valid_dumpStr h.1.1), utf8Valid_colon,
        utf8Valid_append _ (utf8Valid_dump c v h.2.1)]
      exact utf8Valid_dumpMembers c ms h.2.2
end

end Utf8Text
