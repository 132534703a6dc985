import Mathlib.Algebra.Order.Ring.Nat
import Mathlib.Tactic.Common

/-!
# Varints and fields of the protocol buffer wire format

Base 128 varints and the two field encodings built from them, with the sizes needed to
bound an encoded message, and how a varint and a field are read back.
-/

namespace ProtobufWire

/-- Seven bits a byte, lowest first, the high bit set on every byte but the last. -/
def varint (n : ℕ) : List UInt8 :=
  if n < 128 then [UInt8.ofNat n] else UInt8.ofNat (n % 128 + 128) :: varint (n / 128)
termination_by n
decreasing_by omega

theorem varint_length_of_lt {n : ℕ} (h : n < 128) : (varint n).length = 1 := by
  rw [varint, if_pos h]
  rfl

theorem varint_length_of_ge {n : ℕ} (h : 128 ≤ n) :
    (varint n).length = (varint (n / 128)).length + 1 := by
  rw [varint, if_neg (by omega)]
  rfl

theorem varint_length_pos (n : ℕ) : 1 ≤ (varint n).length := by
  rcases Nat.lt_or_ge n 128 with h | h
  · exact (varint_length_of_lt h).ge
  · rw [varint_length_of_ge h]
    omega

theorem varint_length_le {k n : ℕ} (hk : 0 < k) (h : n < 128 ^ k) : (varint n).length ≤ k := by
  induction k generalizing n with
  | zero => omega
  | succ k ih =>
    rcases Nat.lt_or_ge n 128 with hn | hn
    · rw [varint_length_of_lt hn]
      omega
    · have hk' : 0 < k := by
        by_contra hk'
        obtain rfl : k = 0 := by omega
        omega
      have hdiv : n / 128 < 128 ^ k := by
        rw [Nat.div_lt_iff_lt_mul (by omega), ← Nat.pow_succ]
        exact h
      rw [varint_length_of_ge hn]
      have := ih hk' hdiv
      omega

theorem varint_length_two {n : ℕ} (h : 128 ≤ n) (h' : n < 16384) : (varint n).length = 2 := by
  rw [varint_length_of_ge h, varint_length_of_lt (by omega)]

theorem varint_length_three {n : ℕ} (h : 16384 ≤ n) : 3 ≤ (varint n).length := by
  rw [varint_length_of_ge (by omega), varint_length_of_ge (by omega)]
  have := varint_length_pos (n / 128 / 128)
  omega

def varintField (field value : ℕ) : List UInt8 := varint (8 * field) ++ varint value

def bytesField (field : ℕ) (value : List UInt8) : List UInt8 :=
  varint (8 * field + 2) ++ varint value.length ++ value

theorem varintField_length {field : ℕ} (h : field < 16) (value : ℕ) :
    (varintField field value).length = 1 + (varint value).length := by
  rw [varintField, List.length_append, varint_length_of_lt (by omega)]

theorem bytesField_length {field : ℕ} (h : field < 15) (value : List UInt8) :
    (bytesField field value).length = 1 + (varint value.length).length + value.length := by
  rw [bytesField, List.length_append, List.length_append, varint_length_of_lt (by omega)]

/-- A varint of at most `k` bytes, and what follows it. -/
def parseVarint : ℕ → List UInt8 → Option (ℕ × List UInt8)
  | 0, _ | _, [] => none
  | k + 1, b :: rest =>
    if b.toNat < 128 then some (b.toNat, rest)
    else (parseVarint k rest).map fun x => (b.toNat - 128 + 128 * x.1, x.2)

theorem parseVarint_append {k n : ℕ} (h : (varint n).length ≤ k) (rest : List UInt8) :
    parseVarint k (varint n ++ rest) = some (n, rest) := by
  induction k generalizing n with
  | zero =>
    have := varint_length_pos n
    omega
  | succ k ih =>
    rcases Nat.lt_or_ge n 128 with hn | hn
    · rw [varint, if_pos hn]
      simp [parseVarint, Nat.mod_eq_of_lt (show n < 256 by omega), hn]
    · have hlength := varint_length_of_ge hn
      have hbyte : (UInt8.ofNat (n % 128 + 128)).toNat = n % 128 + 128 := by
        rw [UInt8.toNat_ofNat']
        omega
      rw [varint, if_neg (by omega), List.cons_append, parseVarint, hbyte, if_neg (by omega),
        ih (by omega), Option.map_some]
      simp only [Option.some.injEq, Prod.mk.injEq, and_true]
      omega

/-- The value of a field that has to come next, and what follows it. -/
def parseVarintField (field : ℕ) (bytes : List UInt8) : Option (ℕ × List UInt8) :=
  (parseVarint 10 bytes).bind fun x => if x.1 = 8 * field then parseVarint 10 x.2 else none

def parseBytesField (field : ℕ) (bytes : List UInt8) : Option (List UInt8 × List UInt8) :=
  (parseVarint 10 bytes).bind fun x =>
    if x.1 = 8 * field + 2 then (parseVarint 10 x.2).map fun y => (y.2.take y.1, y.2.drop y.1)
    else none

section Fields

variable {field : ℕ}

theorem parseVarintField_append (hfield : field < 16) {value : ℕ} (h : value < 2 ^ 64)
    (rest : List UInt8) :
    parseVarintField field (varintField field value ++ rest) = some (value, rest) := by
  have htag : (varint (8 * field)).length ≤ 10 := by
    rw [varint_length_of_lt (by omega)]
    decide
  have hvalue : (varint value).length ≤ 10 := varint_length_le (by decide) (by omega)
  rw [parseVarintField, varintField, List.append_assoc, parseVarint_append htag, Option.bind_some,
    if_pos rfl, parseVarint_append hvalue]

theorem parseBytesField_append (hfield : field < 15) {value : List UInt8}
    (h : value.length < 2 ^ 64) (rest : List UInt8) :
    parseBytesField field (bytesField field value ++ rest) = some (value, rest) := by
  have htag : (varint (8 * field + 2)).length ≤ 10 := by
    rw [varint_length_of_lt (by omega)]
    decide
  have hlength : (varint value.length).length ≤ 10 := varint_length_le (by decide) (by omega)
  rw [parseBytesField, bytesField, List.append_assoc, List.append_assoc, parseVarint_append htag,
    Option.bind_some, if_pos rfl, parseVarint_append hlength, Option.map_some]
  simp

end Fields

end ProtobufWire
