import Mathlib.Algebra.Ring.Int.Defs
import Mathlib.Algebra.Ring.Nat
import Mathlib.Data.List.GetD
import Mathlib.Data.List.Infix

/-! # Byte memory — buffers, partial stores and 32-bit words

    A buffer is a function from offsets to bytes: what an allocator hands out
    is arbitrary, a store changes a contiguous range, and a slice reads the
    first bytes back.  The 32-bit words of a length-prefixed wire format are
    read and written through such buffers, so a store that covers only part of
    a word leaves the rest of the old word in place. -/

namespace ByteMemory

/-- A byte string. -/
abbrev Bytes := List UInt8

/-- The contents of an unbounded buffer. -/
abbrev Mem := Nat → UInt8

/-- The bytes of an ASCII literal. -/
def ascii (s : String) : Bytes := s.toList.map (fun c => UInt8.ofNat c.toNat)

/-- Store `bs` from offset `off` on; everything else is untouched. -/
def store (m : Mem) (off : Nat) (bs : Bytes) : Mem :=
  fun i => if off ≤ i ∧ i < off + bs.length then bs.getD (i - off) 0 else m i

/-- The first `n` bytes of a buffer. -/
def slice (m : Mem) (n : Nat) : Bytes := (List.range n).map m

@[simp] theorem slice_length (m : Mem) (n : Nat) : (slice m n).length = n := by
  simp [slice]

@[simp] theorem store_nil (m : Mem) (off : Nat) : store m off [] = m := by
  funext i
  show (if off ≤ i ∧ i < off + 0 then _ else m i) = m i
  rw [if_neg (by omega)]

/-- Consecutive stores are one store. -/
theorem store_store (m : Mem) (off : Nat) (a b : Bytes) :
    store (store m off a) (off + a.length) b = store m off (a ++ b) := by
  funext i
  simp only [store]
  rw [List.length_append]
  by_cases hb : off + a.length ≤ i ∧ i < off + a.length + b.length
  · -- the second store wins
    rw [if_pos hb, if_pos (by omega)]
    rw [List.getD_append_right a b 0 (i - off) (by omega)]
    congr 1
    omega
  · rw [if_neg hb]
    by_cases ha : off ≤ i ∧ i < off + a.length
    · rw [if_pos ha, if_pos (by omega)]
      rw [List.getD_append a b 0 (i - off) (by omega)]
    · rw [if_neg ha, if_neg (by omega)]

/-- A store right behind one at the start. -/
theorem store_behind (m : Mem) (a b : Bytes) :
    store (store m 0 a) a.length b = store m 0 (a ++ b) := by
  have h := store_store m 0 a b
  rw [Nat.zero_add] at h
  exact h

/-- A slice of a store: the stored bytes, then what the buffer held before. -/
theorem slice_store (m : Mem) (bs : Bytes) (n : Nat) :
    slice (store m 0 bs) n = bs.take n ++ (slice m n).drop bs.length := by
  refine List.ext_getElem ?_ ?_
  · simp only [slice_length, List.length_append, List.length_take, List.length_drop]
    omega
  · intro i h1 h2
    have hi : i < n := by simpa using h1
    by_cases hb : i < bs.length
    · rw [List.getElem_append_left (by simp only [List.length_take]; omega)]
      simp [slice, store, hb]
    · rw [List.getElem_append_right (by simp only [List.length_take]; omega)]
      have hm : min n bs.length = bs.length := by omega
      simp [slice, store, hb, hm, Nat.add_sub_cancel' (Nat.le_of_not_lt hb)]

/-- A full store is read back exactly. -/
theorem slice_store_eq (m : Mem) {bs : Bytes} {n : Nat} (h : bs.length = n) :
    slice (store m 0 bs) n = bs := by
  rw [slice_store]
  have hd : (slice m n).drop bs.length = [] :=
    List.drop_eq_nil_of_le (by rw [slice_length]; omega)
  rw [hd, List.append_nil, List.take_of_length_le (by omega)]

/-- A buffer filled with one byte. -/
def fill (b : UInt8) : Mem := fun _ => b

theorem slice_fill (b : UInt8) (n : Nat) : slice (fill b) n = List.replicate n b := by
  refine List.ext_getElem (by simp) ?_
  intro i h1 h2
  simp [slice, fill]

/-! ## 32-bit words -/

/-- The byte order of the machine. -/
inductive Endian where
  | little
  | big
deriving DecidableEq, Repr

/-- Value of a byte string, least significant byte first. -/
def leValue : Bytes → Nat
  | [] => 0
  | b :: bs => b.toNat + 256 * leValue bs

/-- The `k` low-order bytes of a number, least significant first. -/
def leBytes : Nat → Nat → Bytes
  | 0, _ => []
  | k + 1, n => UInt8.ofNat (n % 256) :: leBytes k (n / 256)

/-- A 32-bit word in native byte order, as it stands in memory. -/
def u32Bytes : Endian → Nat → Bytes
  | .little, n => leBytes 4 n
  | .big, n => (leBytes 4 n).reverse

/-- The value of four bytes in native byte order. -/
def u32Value : Endian → Bytes → Nat
  | .little, bs => leValue bs
  | .big, bs => leValue bs.reverse

@[simp] theorem leBytes_length (k n : Nat) : (leBytes k n).length = k := by
  induction k generalizing n with
  | zero => rfl
  | succ k ih =>
      show (leBytes k (n / 256)).length + 1 = k + 1
      rw [ih]

@[simp] theorem u32Bytes_length (e : Endian) (n : Nat) : (u32Bytes e n).length = 4 := by
  cases e with
  | little => exact leBytes_length 4 n
  | big =>
      show (leBytes 4 n).reverse.length = 4
      rw [List.length_reverse, leBytes_length]

theorem u32Bytes_ne_nil (e : Endian) (n : Nat) : u32Bytes e n ≠ [] := by
  intro hnil
  have hlen := u32Bytes_length e n
  rw [hnil] at hlen
  cases hlen

theorem leValue_leBytes (k n : Nat) : leValue (leBytes k n) = n % 256 ^ k := by
  induction k generalizing n with
  | zero =>
      show 0 = n % 1
      omega
  | succ k ih =>
      have hb : (UInt8.ofNat (n % 256)).toNat = n % 256 := by
        rw [UInt8.toNat_ofNat']
        omega
      show (UInt8.ofNat (n % 256)).toNat + 256 * leValue (leBytes k (n / 256)) = n % 256 ^ (k + 1)
      rw [hb, ih, Nat.pow_succ, Nat.mul_comm (256 ^ k) 256, Nat.mod_mul]

/-- A word is read back modulo `2 ^ 32`. -/
theorem u32Value_u32Bytes (e : Endian) (n : Nat) : u32Value e (u32Bytes e n) = n % 2 ^ 32 := by
  cases e with
  | little => exact leValue_leBytes 4 n
  | big =>
      show leValue (leBytes 4 n).reverse.reverse = n % 2 ^ 32
      rw [List.reverse_reverse]
      exact leValue_leBytes 4 n

theorem leValue_lt (bs : Bytes) : leValue bs < 256 ^ bs.length := by
  induction bs with
  | nil => exact Nat.one_pos
  | cons b bs ih =>
      have hb := b.toNat_lt
      show b.toNat + 256 * leValue bs < 256 ^ (bs.length + 1)
      rw [Nat.pow_succ]
      omega

theorem u32Value_lt (e : Endian) {bs : Bytes} (h : bs.length = 4) : u32Value e bs < 2 ^ 32 := by
  cases e with
  | little =>
      have := leValue_lt bs
      rw [h] at this
      exact this
  | big =>
      have := leValue_lt bs.reverse
      rw [List.length_reverse, h] at this
      exact this

/-- The bytes of a word are determined by its value. -/
theorem leBytes_leValue (bs : Bytes) : leBytes bs.length (leValue bs) = bs := by
  induction bs with
  | nil => rfl
  | cons b bs ih =>
      have hb := b.toNat_lt
      show UInt8.ofNat ((b.toNat + 256 * leValue bs) % 256)
        :: leBytes bs.length ((b.toNat + 256 * leValue bs) / 256) = b :: bs
      rw [show (b.toNat + 256 * leValue bs) % 256 = b.toNat by omega,
        show (b.toNat + 256 * leValue bs) / 256 = leValue bs by omega, ih]
      rw [UInt8.ofNat_toNat]

theorem u32Bytes_u32Value (e : Endian) {bs : Bytes} (h : bs.length = 4) :
    u32Bytes e (u32Value e bs) = bs := by
  cases e with
  | little =>
      have := leBytes_leValue bs
      rw [h] at this
      exact this
  | big =>
      have := leBytes_leValue bs.reverse
      rw [List.length_reverse, h] at this
      show (leBytes 4 (leValue bs.reverse)).reverse = bs
      rw [this, List.reverse_reverse]

/-- A 32-bit variable seen as the buffer at its address. -/
def wordMem (e : Endian) (n : Nat) : Mem := store (fill 0) 0 (u32Bytes e n)

/-- The 32-bit variable standing in a buffer. -/
def memWord (e : Endian) (m : Mem) : Nat := u32Value e (slice m 4)

theorem slice_wordMem (e : Endian) (n : Nat) : slice (wordMem e n) 4 = u32Bytes e n :=
  slice_store_eq (fill 0) (u32Bytes_length e n)

theorem memWord_lt (e : Endian) (m : Mem) : memWord e m < 2 ^ 32 :=
  u32Value_lt e (slice_length m 4)

/-- A full store replaces the word. -/
theorem memWord_store_full (e : Endian) (m : Mem) {bs : Bytes} (h : bs.length = 4) :
    memWord e (store m 0 bs) = u32Value e bs := by
  show u32Value e (slice (store m 0 bs) 4) = u32Value e bs
  rw [slice_store_eq m h]

/-- A word nothing was stored into keeps its value. -/
theorem memWord_wordMem (e : Endian) (n : Nat) : memWord e (wordMem e n) = n % 2 ^ 32 := by
  show u32Value e (slice (wordMem e n) 4) = n % 2 ^ 32
  rw [slice_wordMem, u32Value_u32Bytes]

end ByteMemory
