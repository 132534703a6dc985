import Mathlib.Data.List.Basic
import Mathlib.Data.List.TakeWhile

/-!
# Byte memory and NUL-terminated strings

Memory is the function from offsets of a pointer to bytes. It has no end: whether a
copy stays inside the allocation behind the pointer is a question about its length,
which is kept apart from what the copy does to the bytes.
-/

namespace CStringMemory

abbrev Bytes := List UInt8

abbrev Memory := ℕ → UInt8

/-- `memcpy(dst, src, n)`, as the bytes at `dst` afterwards. -/
def memcpy (dst src : Memory) (n : ℕ) : Memory := fun i => if i < n then src i else dst i

theorem memcpy_of_lt (dst src : Memory) {n i : ℕ} (h : i < n) : memcpy dst src n i = src i := by
  simp [memcpy, h]

theorem memcpy_of_le (dst src : Memory) {n i : ℕ} (h : n ≤ i) : memcpy dst src n i = dst i := by
  simp [memcpy, Nat.not_lt.mpr h]

/-- The bytes of a string followed by its NUL. -/
def cStr (bs : Bytes) : Memory := fun i => bs.getD i 0

theorem cStr_of_lt (bs : Bytes) {i : ℕ} (h : i < bs.length) : cStr bs i = bs[i] := by
  simp [cStr, h]

/-- `s` is the C string at `mem`: its bytes up to the first NUL. -/
structure IsCString (mem : Memory) (s : Bytes) : Prop where
  bytes : ∀ i (h : i < s.length), mem i = s[i]
  nul : mem s.length = 0
  nul_free : 0 ∉ s

theorem isCString_nil_iff (mem : Memory) : IsCString mem [] ↔ mem 0 = 0 := by
  constructor
  · intro h
    simpa using h.nul
  · intro h
    exact ⟨by simp, by simpa using h, by simp⟩

theorem isCString_iff (mem : Memory) (s : Bytes) :
    IsCString mem s ↔ (∀ i : Fin s.length, mem i = s[i]) ∧ mem s.length = 0 ∧ 0 ∉ s := by
  constructor
  · intro h
    exact ⟨fun i => h.bytes i i.isLt, h.nul, h.nul_free⟩
  · rintro ⟨hbytes, hnul, hfree⟩
    exact ⟨fun i hi => hbytes ⟨i, hi⟩, hnul, hfree⟩

instance (mem : Memory) (s : Bytes) : Decidable (IsCString mem s) :=
  decidable_of_iff _ (isCString_iff mem s).symm

theorem isCString_cStr {s : Bytes} (hs : 0 ∉ s) : IsCString (cStr s) s :=
  ⟨fun _ hi => cStr_of_lt s hi, by simp [cStr], hs⟩

/-- What a C function sees of a byte string that may contain NUL bytes. -/
def untilNul (bs : Bytes) : Bytes := bs.takeWhile (fun b => b ≠ 0)

theorem untilNul_nul_free (bs : Bytes) : 0 ∉ untilNul bs := by
  intro h
  simpa using List.mem_takeWhile_imp h

theorem cStr_untilNul_length (bs : Bytes) : cStr bs (untilNul bs).length = 0 := by
  induction bs with
  | nil => simp [untilNul, cStr]
  | cons b bs ih =>
    by_cases hb : b = 0
    · simp [untilNul, cStr, hb]
    · simpa [untilNul, cStr, hb] using ih

/-- Memory that starts with the bytes of a string and its NUL holds the C string of
these bytes, whatever follows. -/
theorem isCString_of_agrees {mem : Memory} {bs : Bytes}
    (h : ∀ i < bs.length + 1, mem i = cStr bs i) : IsCString mem (untilNul bs) := by
  have hprefix : untilNul bs <+: bs := List.takeWhile_prefix _
  have hle : (untilNul bs).length ≤ bs.length := hprefix.length_le
  refine ⟨?_, ?_, untilNul_nul_free bs⟩
  · intro i hi
    rw [h i (by omega), cStr_of_lt bs (by omega), hprefix.getElem hi]
  · rw [h _ (by omega), cStr_untilNul_length]

theorem IsCString.unique {mem : Memory} {s t : Bytes} (hs : IsCString mem s)
    (ht : IsCString mem t) : s = t := by
  -- a shorter string would put its NUL among the bytes of the longer one
  have hle : ∀ {a b : Bytes}, IsCString mem a → IsCString mem b → b.length ≤ a.length := by
    intro a b ha hb
    by_contra hlt
    have hlt : a.length < b.length := Nat.lt_of_not_le hlt
    have hnul : b[a.length] = 0 := (hb.bytes a.length hlt).symm.trans ha.nul
    exact hb.nul_free (hnul ▸ List.getElem_mem _)
  apply List.ext_getElem (Nat.le_antisymm (hle ht hs) (hle hs ht))
  intro i hi hi'
  rw [← hs.bytes i hi, ← ht.bytes i hi']

theorem IsCString.drop {mem : Memory} {s t : Bytes} (h : IsCString mem (s ++ t)) :
    IsCString (fun i => mem (s.length + i)) t := by
  refine ⟨?_, ?_, ?_⟩
  · intro i hi
    rw [h.bytes (s.length + i) (by simpa using hi), List.getElem_append_right (by omega)]
    simp
  · simpa using h.nul
  · intro hmem
    exact h.nul_free (List.mem_append_right _ hmem)

theorem IsCString.getElem? {mem : Memory} {s : Bytes} (h : IsCString mem s) {i : ℕ} {b : UInt8}
    (hb : s[i]? = some b) : mem i = b := by
  obtain ⟨hi, rfl⟩ := List.getElem?_eq_some_iff.mp hb
  exact h.bytes i hi

def strcspn (s reject : Bytes) : ℕ := (s.takeWhile (fun b => b ∉ reject)).length

theorem strcspn_append {s t reject : Bytes} {b : UInt8} (hs : ∀ c ∈ s, c ∉ reject)
    (hb : b ∈ reject) : strcspn (s ++ b :: t) reject = s.length := by
  rw [strcspn, List.takeWhile_append_of_pos (by simpa using hs)]
  simp [hb]

theorem strcspn_le_length (s reject : Bytes) : strcspn s reject ≤ s.length :=
  (List.takeWhile_prefix _).length_le

theorem strcspn_lt_length_iff {s reject : Bytes} :
    strcspn s reject < s.length ↔ ∃ b ∈ s, b ∈ reject := by
  induction s with
  | nil => simp [strcspn]
  | cons c s ih =>
    by_cases hc : c ∈ reject
    · simp [strcspn, hc]
    · simpa [strcspn, hc] using ih

end CStringMemory
