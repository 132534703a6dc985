import Wineing.CStringMemory
import Mathlib.Data.BitVec

/-!
# Format strings of printf

The conversion specifications of ISO C and the output of `fprintf` for arguments that are
strings and ints. There is no output where the specifications and the arguments do not
match one to one: a specification is incomplete or unknown, it wants an argument that is
missing or of another type, or arguments are left over.
-/

namespace FormatStrings
open CStringMemory

/-- A string is given by its bytes up to the NUL. -/
inductive Arg
  | string (bytes : Bytes)
  | int (n : ℤ)
  deriving DecidableEq

/-- A field width or a precision, possibly `*`. -/
inductive Extent
  | absent
  | number (n : ℕ)
  | argument
  deriving DecidableEq

structure Spec where
  flags : Bytes
  width : Extent
  precision : Extent
  modifier : Bytes
  conversion : UInt8
  deriving DecidableEq

inductive Piece
  | literal (b : UInt8)
  | spec (s : Spec)
  deriving DecidableEq

def percent : UInt8 := 0x25
def zero : UInt8 := 0x30
def minus : UInt8 := 0x2D
def plus : UInt8 := 0x2B
def space : UInt8 := 0x20
def hash : UInt8 := 0x23
def star : UInt8 := 0x2A
def dot : UInt8 := 0x2E

def modifierBytes : Bytes := [0x68, 0x6C, 0x6A, 0x7A, 0x74, 0x4C]

def conversions : Bytes :=
  [0x64, 0x69, 0x6F, 0x75, 0x78, 0x58, 0x66, 0x46, 0x65, 0x45, 0x67, 0x47, 0x61, 0x41, 0x63, 0x73,
    0x70, 0x6E, percent]

inductive Stage
  | flags
  | width
  | widthArgument
  | dot
  | precision
  | precisionArgument
  | modifier
  deriving DecidableEq

inductive Scanned
  | more (stage : Stage) (s : Spec)
  | complete (s : Spec)
  | invalid

def isDigit (b : UInt8) : Bool := zero ≤ b ∧ b ≤ 0x39

def Extent.snoc (e : Extent) (digit : UInt8) : Extent :=
  let n := match e with
    | .number n => n
    | _ => 0
  .number (10 * n + (digit.toNat - zero.toNat))

def scanByte (stage : Stage) (s : Spec) (b : UInt8) : Scanned :=
  if stage = .flags ∧ b ∈ [minus, plus, space, hash, zero] then
    .more .flags { s with flags := s.flags ++ [b] }
  else if stage = .flags ∧ b = star then .more .widthArgument { s with width := .argument }
  else if stage ∈ [.flags, .width] ∧ isDigit b then
    .more .width { s with width := s.width.snoc b }
  else if stage ∈ [.flags, .width, .widthArgument] ∧ b = dot then
    .more .dot { s with precision := .number 0 }
  else if stage = .dot ∧ b = star then
    .more .precisionArgument { s with precision := .argument }
  else if stage ∈ [.dot, .precision] ∧ isDigit b then
    .more .precision { s with precision := s.precision.snoc b }
  else if b ∈ modifierBytes then .more .modifier { s with modifier := s.modifier ++ [b] }
  else if b ∈ conversions then .complete { s with conversion := b }
  else .invalid

def Spec.empty : Spec := ⟨[], .absent, .absent, [], percent⟩

/-- The pieces of a format. A specification that is being read is given with its stage. -/
def scan : Option (Stage × Spec) → Bytes → Option (List Piece)
  | none, [] => some []
  | some _, [] => none
  | none, b :: bs =>
    if b = percent then scan (some (.flags, .empty)) bs else (scan none bs).map (.literal b :: ·)
  | some (stage, s), b :: bs =>
    match scanByte stage s b with
    | .more stage s => scan (some (stage, s)) bs
    | .complete s => (scan none bs).map (.spec s :: ·)
    | .invalid => none

/-- A width or precision takes an argument where it is `*`. -/
def Extent.take : Extent → List Arg → Option (Option ℤ × List Arg)
  | .absent, args => some (none, args)
  | .number n, args => some (some n, args)
  | .argument, .int n :: args => some (some n, args)
  | .argument, _ => none

/-- Fills a field from the left, or from the right with the flag `-`, which a negative width
stands for too. -/
def pad (s : Spec) (width : Option ℤ) (out : Bytes) : Bytes :=
  let width := width.getD 0
  let fill := List.replicate (width.natAbs - out.length) space
  if minus ∈ s.flags ∨ width < 0 then out ++ fill else fill ++ out

/-- The bits of an integer argument, for the modifiers of `int` and what is promoted to it. -/
def intWidth (modifier : Bytes) : Option ℕ :=
  if modifier = [] then some 32
  else if modifier = [0x68] then some 16
  else if modifier = [0x68, 0x68] then some 8
  else none

/-- At least `precision` digits, none for a zero with precision 0. -/
def digits (base : ℕ) (precision : Option ℤ) (n : ℕ) : Bytes :=
  let ds := if n = 0 then [] else (Nat.toDigits base n).map Char.toUInt8
  List.replicate ((precision.getD 1).toNat - ds.length) zero ++ ds

def toUpper (bs : Bytes) : Bytes := bs.map fun b => if 0x61 ≤ b then b - 0x20 else b

/-- A number after its sign or base; the flag `0` fills with zeros between them. -/
def number (s : Spec) (width precision : Option ℤ) (lead ds : Bytes) : Bytes :=
  if zero ∈ s.flags ∧ minus ∉ s.flags ∧ precision = none then
    let fill := (width.getD 0).toNat - (lead ++ ds).length
    pad s width (lead ++ List.replicate fill zero ++ ds)
  else pad s width (lead ++ ds)

def sign (s : Spec) (n : ℤ) : Bytes :=
  if n < 0 then [minus]
  else if plus ∈ s.flags then [plus]
  else if space ∈ s.flags then [space]
  else []

/-- An unsigned number with its base, which the flag `#` puts in front. -/
def unsigned (s : Spec) (width precision : Option ℤ) (n : ℕ) : Option Bytes :=
  let alternative := hash ∈ s.flags
  if s.conversion = 0x75 then some (number s width precision [] (digits 10 precision n))
  else if s.conversion = 0x6F then
    let ds := digits 8 precision n
    let lead := if alternative ∧ ds.head? ≠ some zero then [zero] else []
    some (number s width precision [] (lead ++ ds))
  else if s.conversion = 0x78 then
    let lead := if alternative ∧ n ≠ 0 then [zero, 0x78] else []
    some (number s width precision lead (digits 16 precision n))
  else if s.conversion = 0x58 then
    let lead := if alternative ∧ n ≠ 0 then [zero, 0x58] else []
    some (number s width precision lead (toUpper (digits 16 precision n)))
  else none

def Spec.field (s : Spec) (width precision : Option ℤ) : Arg → Option Bytes
  | .string bytes =>
    if s.conversion = 0x73 ∧ s.modifier = [] then
      some (pad s width (precision.elim bytes fun n => bytes.take n.toNat))
    else none
  | .int n =>
    if s.conversion = 0x63 ∧ s.modifier = [] then
      some (pad s width [UInt8.ofNat (n % 256).toNat])
    else (intWidth s.modifier).bind fun w =>
      if s.conversion ∈ [0x64, 0x69] then
        let n := (BitVec.ofInt w n).toInt
        some (number s width precision (sign s n) (digits 10 precision n.natAbs))
      else unsigned s width precision (BitVec.ofInt w n).toNat

/-- What a specification is converted to, and the arguments that it leaves. -/
def Spec.convert (s : Spec) (args : List Arg) : Option (Bytes × List Arg) :=
  if s.conversion = percent then
    if s = .empty then some ([percent], args) else none
  else
    (s.width.take args).bind fun (width, args) =>
    (s.precision.take args).bind fun (precision, args) =>
    match args with
    | [] => none
    -- a negative precision is none
    | arg :: args =>
      (s.field width (precision.filter (0 ≤ ·)) arg).map fun out => (out, args)

def render : List Piece → List Arg → Option Bytes
  | [], [] => some []
  | [], _ :: _ => none
  | .literal b :: ps, args => (render ps args).map (b :: ·)
  | .spec s :: ps, args =>
    (s.convert args).bind fun (out, args) => (render ps args).map (out ++ ·)

/-- What `fprintf` writes. -/
def fprintf (format : Bytes) (args : List Arg) : Option Bytes :=
  (scan none format).bind fun ps => render ps args

section Plain

variable {s : Spec} {out bs : Bytes} {args : List Arg} {ps : List Piece}

theorem scan_of_plain (h : percent ∉ bs) : scan none bs = some (bs.map .literal) := by
  induction bs with
  | nil => rfl
  | cons b bs ih =>
    obtain ⟨hb, hbs⟩ : ¬ percent = b ∧ percent ∉ bs := by simpa using h
    simp [scan, ih hbs, Ne.symm hb]

theorem render_literals (bs : Bytes) : render (bs.map .literal) [] = some bs := by
  induction bs with
  | nil => rfl
  | cons b bs ih => simp [render, ih]

theorem fprintf_of_plain (h : percent ∉ bs) : fprintf bs [] = some bs := by
  simp [fprintf, scan_of_plain h, render_literals]

theorem convert_nil (h : s.convert [] = some (out, args)) : out = [percent] ∧ args = [] := by
  unfold Spec.convert at h
  split at h
  · obtain ⟨_, rfl, rfl⟩ := by simpa using h
    exact ⟨rfl, rfl⟩
  · have htake : ∀ (e : Extent) r, e.take [] = some r → r.2 = [] := by
      intro e r hr
      cases e <;> simp only [Extent.take, Option.some.injEq, reduceCtorEq] at hr <;> rw [← hr]
    obtain ⟨⟨width, as₁⟩, hwidth, h⟩ := Option.bind_eq_some_iff.mp h
    obtain rfl := htake _ _ hwidth
    obtain ⟨⟨precision, as₂⟩, hprecision, h⟩ := Option.bind_eq_some_iff.mp h
    obtain rfl := htake _ _ hprecision
    cases h

/-- A specification that is complete somewhere in what follows. -/
theorem scan_spec {stage : Stage} (h : scan (some (stage, s)) bs = some ps) :
    ∃ s' rest ps', ps = .spec s' :: ps' ∧ scan none rest = some ps' ∧ rest.length < bs.length := by
  induction bs generalizing stage s with
  | nil => cases h
  | cons b bs ih =>
    rw [scan] at h
    cases hscan : scanByte stage s b with
    | more stage s =>
      obtain ⟨s', rest, ps', hps, hrest, hlt⟩ := ih (by simpa [hscan] using h)
      exact ⟨s', rest, ps', hps, hrest, Nat.lt_succ_of_lt hlt⟩
    | complete s' =>
      obtain ⟨ps', hrest, hps⟩ := Option.map_eq_some_iff.mp (by simpa [hscan] using h)
      exact ⟨s', bs, ps', hps.symm, hrest, Nat.lt_succ_self _⟩
    | invalid => simp [hscan] at h

theorem render_nil_length (hscan : scan none bs = some ps) (hout : render ps [] = some out) :
    out.length ≤ bs.length ∧ (percent ∈ bs → out.length < bs.length) := by
  induction hn : bs.length using Nat.strongRecOn generalizing bs ps out with
  | ind n ih =>
    subst hn
    cases bs with
    | nil =>
      obtain rfl : [] = ps := by simpa [scan] using hscan
      obtain rfl : [] = out := by simpa [render] using hout
      simp
    | cons b bs =>
      rw [scan] at hscan
      split at hscan
      · obtain ⟨s, rest, ps', rfl, hrest, hlt⟩ := scan_spec hscan
        obtain ⟨⟨out₁, args⟩, hconvert, hout⟩ := Option.bind_eq_some_iff.mp hout
        obtain ⟨rfl, rfl⟩ := convert_nil hconvert
        obtain ⟨out₂, hout₂, rfl⟩ := Option.map_eq_some_iff.mp hout
        have hle := (ih rest.length (Nat.lt_succ_of_lt hlt) hrest hout₂ rfl).1
        have hshort : ([percent] ++ out₂).length < (b :: bs).length := by
          simp only [List.length_append, List.length_cons, List.length_nil]
          omega
        exact ⟨hshort.le, fun _ => hshort⟩
      · obtain ⟨ps', hps', rfl⟩ := Option.map_eq_some_iff.mp hscan
        obtain ⟨out', hout', rfl⟩ := Option.map_eq_some_iff.mp hout
        obtain ⟨hle, hlt⟩ := ih bs.length (Nat.lt_succ_self _) hps' hout' rfl
        refine ⟨Nat.succ_le_succ hle, fun hmem => Nat.succ_lt_succ (hlt ?_)⟩
        exact (List.mem_cons.mp hmem).resolve_left (Ne.symm ‹_›)

/-- A text given as the format is written verbatim exactly when it has no percent sign and
no NUL. -/
theorem fprintf_untilNul_iff (bs : Bytes) :
    fprintf (untilNul bs) [] = some bs ↔ percent ∉ bs ∧ 0 ∉ bs := by
  constructor
  · intro h
    obtain ⟨ps, hscan, hout⟩ := Option.bind_eq_some_iff.mp h
    obtain ⟨hle, hlt⟩ := render_nil_length hscan hout
    -- the text is not longer than its part up to the NUL
    have hwhole : untilNul bs = bs :=
      (List.takeWhile_prefix _).eq_of_length (Nat.le_antisymm (List.takeWhile_prefix _).length_le hle)
    rw [hwhole] at hlt
    exact ⟨fun hpercent => Nat.lt_irrefl _ (hlt hpercent), hwhole ▸ untilNul_nul_free bs⟩
  · rintro ⟨hpercent, hnul⟩
    have hwhole : untilNul bs = bs := by
      refine List.takeWhile_eq_self_iff.mpr fun b hb => ?_
      have hne : b ≠ 0 := fun heq => hnul (heq ▸ hb)
      simpa using hne
    rw [hwhole]
    exact fprintf_of_plain hpercent

end Plain

end FormatStrings
