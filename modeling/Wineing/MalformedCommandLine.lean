import Wineing.AccessTraces
import Wineing.CommandLine

/-!
# Malformed command lines

What `cmd_parse` reads of its arguments and which pointers it stores. It looks at the
third and the ninth character of an argument whatever its length, takes what comes one
past the first `=` for the value, also where there is none, and ignores what it does not
recognise. Exactly the arguments that are long enough and have an `=` are parsed within
their bounds, and a malformed argument is refused only if a required option is missing.
-/

namespace Wineing
open CStringMemory AccessTraces

/-- A read of a position of an argument, or a pointer stored in the configuration. -/
inductive Access
  | read (argv : Argument) (i : ℕ)
  | store (p : CharPtr)

/-- The access stays within the argument, up to its NUL. The index of a pointer is an
`int`, which overflows from 2^31 on. -/
def Access.Safe : Access → Prop
  | .read argv i => i ≤ argv.chars.length
  | .store p => 0 ≤ p.offset ∧ p.offset ≤ p.arg.chars.length ∧ p.offset < 2 ^ 31

def Argument.read (argv : Argument) (i : ℕ) : Traced Access UInt8 := ⟨argv.mem i, [.read argv i]⟩

def strcspnTraced (argv : Argument) (reject : Bytes) : Traced Access ℕ :=
  ⟨strcspn argv.chars reject, (List.range (strcspn argv.chars reject + 1)).map (.read argv)⟩

def cmdParseOptTraced (argv : Argument) : Traced Access CharPtr := do
  let n ← strcspnTraced argv (ascii "=")
  let eq : ℤ := (n : ℤ).bmod (2 ^ 32)
  return ⟨argv, eq + 1⟩

def WConf.storeField (conf : WConf) (argv : Argument) (o : CmdOption) : Traced Access WConf := do
  let p ← cmdParseOptTraced argv
  ⟨conf.setField p o, [.store p]⟩

def cmdParseArgTraced (s : CmdParseState) (argv : Argument) : Traced Access CmdParseState := do
  let c ← argv.read 2
  if c = 'c'.toUInt8 then
    let i ← argv.read 8
    if i = 'i'.toUInt8 then
      let conf ← s.conf.storeField argv .cchanIn
      return ⟨conf, s.allOpts ||| 0x1⟩
    else
      let conf ← s.conf.storeField argv .cchanOut
      return ⟨conf, s.allOpts ||| 0x2⟩
  else if c = 'm'.toUInt8 then
    let conf ← s.conf.storeField argv .mchan
    return ⟨conf, s.allOpts ||| 0x4⟩
  else if c = 't'.toUInt8 then
    let conf ← s.conf.storeField argv .tapeRoot
    return ⟨conf, s.allOpts⟩
  else return s

def cmdParseTraced (argv : List Argument) (conf : WConf) : Traced Access (Option WConf) := do
  let s ← argv.tail.foldlM cmdParseArgTraced ⟨conf, 0⟩
  return if s.allOpts ≠ 7 then none else some s.conf

theorem cmdParseArgTraced_value (s : CmdParseState) (argv : Argument) :
    (cmdParseArgTraced s argv).value = cmdParseArg s argv := by
  unfold cmdParseArgTraced cmdParseArg
  simp only [Traced.value_bind, Traced.value_ite]
  rfl

/-- Without the accesses it is `cmd_parse`. -/
theorem cmdParseTraced_value (argv : List Argument) (conf : WConf) :
    (cmdParseTraced argv conf).value = cmdParse argv conf := by
  have hbody : (fun s a => (cmdParseArgTraced s a).value) = cmdParseArg := by
    funext s a
    exact cmdParseArgTraced_value s a
  rw [cmdParseTraced, Traced.value_bind, Traced.value_foldlM, hbody]
  rfl

/-- The first `=` lies where the pointer behind it is one into the argument. Unless the
argument is so long that `eq` wraps, this says that there is one. -/
def Argument.HasValue (argv : Argument) : Prop :=
  (strcspn argv.chars (ascii "=") + 1) % 2 ^ 32 < 2 ^ 31 ∧
    (strcspn argv.chars (ascii "=") + 1 < 2 ^ 32 → ∃ c ∈ argv.chars, c ∈ ascii "=")

/-- The argument has the characters that `cmd_parse` looks at, and a value where it looks
for one. -/
structure Argument.LongEnough (argv : Argument) : Prop where
  third : 2 ≤ argv.chars.length
  ninth : argv.mem 2 = 'c'.toUInt8 → 8 ≤ argv.chars.length
  value : argv.takenFor.isSome = true → argv.HasValue

theorem safe_store_iff (argv : Argument) :
    Access.Safe (.store (cmdParseOpt argv)) ↔ argv.HasValue := by
  have hle := strcspn_le_length argv.chars (ascii "=")
  have hlt : strcspn argv.chars (ascii "=") < argv.chars.length ↔
      ∃ c ∈ argv.chars, c ∈ ascii "=" := strcspn_lt_length_iff
  simp only [Access.Safe, Argument.HasValue, cmdParseOpt, ← hlt]
  generalize strcspn argv.chars (ascii "=") = n at hle
  rw [Int.bmod_def]
  split <;> omega

theorem all_safe_cmdParseOptTraced (argv : Argument) :
    (cmdParseOptTraced argv).All Access.Safe := by
  have hle := strcspn_le_length argv.chars (ascii "=")
  have hreads : (strcspnTraced argv (ascii "=")).All Access.Safe := by
    intro access haccess
    obtain ⟨i, hi, rfl⟩ := List.mem_map.mp haccess
    have hi := List.mem_range.mp hi
    simp only [Access.Safe]
    omega
  simpa only [cmdParseOptTraced, Traced.all_bind, Traced.all_pure, and_true] using hreads

theorem all_safe_storeField_iff (conf : WConf) (argv : Argument) (o : CmdOption) :
    (conf.storeField argv o).All Access.Safe ↔ argv.HasValue := by
  rw [WConf.storeField, Traced.all_bind, Traced.all_singleton]
  exact (and_iff_right (all_safe_cmdParseOptTraced argv)).trans (safe_store_iff argv)

theorem all_safe_cmdParseArgTraced_iff (s : CmdParseState) (argv : Argument) :
    (cmdParseArgTraced s argv).All Access.Safe ↔ argv.LongEnough := by
  have hread : ∀ i, (argv.read i).All Access.Safe ↔ i ≤ argv.chars.length := fun i => by
    simp [Argument.read, Access.Safe]
  have hlong : argv.LongEnough ↔ 2 ≤ argv.chars.length ∧
      (argv.mem 2 = 'c'.toUInt8 → 8 ≤ argv.chars.length) ∧
      (argv.takenFor.isSome = true → argv.HasValue) :=
    ⟨fun h => ⟨h.third, h.ninth, h.value⟩, fun h => ⟨h.1, h.2.1, h.2.2⟩⟩
  rw [hlong, cmdParseArgTraced]
  simp only [Traced.all_bind, Traced.all_ite, Traced.all_pure, hread, all_safe_storeField_iff,
    and_true]
  refine and_congr_right fun _ => ?_
  change (if argv.mem 2 = 'c'.toUInt8 then 8 ≤ argv.chars.length ∧
    if argv.mem 8 = 'i'.toUInt8 then _ else _ else if argv.mem 2 = 'm'.toUInt8 then _ else
      if argv.mem 2 = 't'.toUInt8 then _ else _) ↔ _
  unfold Argument.takenFor
  split_ifs <;> simp_all

theorem all_safe_cmdParseTraced_iff (argv : List Argument) (conf : WConf) :
    (cmdParseTraced argv conf).All Access.Safe ↔ ∀ a ∈ argv.tail, a.LongEnough := by
  rw [cmdParseTraced, Traced.all_bind, Traced.all_foldlM all_safe_cmdParseArgTraced_iff]
  exact and_iff_left (Traced.all_pure _)

/-- The argument is one of the options of `cmd_print_usage`, with any value. -/
def Argument.Documented (argv : Argument) : Prop :=
  ∃ o : CmdOption, o.name ++ ascii "=" <+: argv.chars

/-- Every argument is accessed within its bounds and a malformed one is refused, exactly when
all are long enough and have values, and all are documented or a required option is missing. -/
theorem cmdParse_refuses_safely_iff (argv : List Argument) (conf : WConf) :
    ((cmdParseTraced argv conf).All Access.Safe ∧
      ((∃ a ∈ argv.tail, ¬ a.Documented) → cmdParse argv conf = none)) ↔
    (∀ a ∈ argv.tail, a.LongEnough) ∧
      ((∀ a ∈ argv.tail, a.Documented) ∨
        ∃ o ∈ CmdOption.required, ∀ a ∈ argv.tail, a.takenFor ≠ some o) := by
  have hdocumented : (∀ a ∈ argv.tail, a.Documented) ↔ ¬ ∃ a ∈ argv.tail, ¬ a.Documented := by
    push Not
    rfl
  rw [all_safe_cmdParseTraced_iff, cmdParse_eq_none_iff, hdocumented, imp_iff_not_or]

/-- An empty argument, and an option without `=` beside the required ones. -/
def malformedArgv : List Argument :=
  [.literal "wineing.exe" (by decide), .literal "" (by decide),
    .literal "--cchan-in=tcp://*:1" (by decide), .literal "--cchan-out=tcp://*:2" (by decide),
    .literal "--mchan=tcp://*:3" (by decide), .literal "--tape-root" (by decide)]

/-- The third position of the empty argument is read, the tape directory is what follows
`--tape-root` and its NUL, and the usage is not printed. -/
theorem cmdParse_accepts_malformed :
    ¬ (cmdParseTraced malformedArgv defaultConf).All Access.Safe ∧
    (∃ a ∈ malformedArgv.tail, ¬ a.Documented) ∧
    (cmdParse malformedArgv defaultConf).map
      (fun conf => (conf.tapeBasedir.arg.chars.length, conf.tapeBasedir.offset)) = some (11, 12) := by
  refine ⟨fun hsafe => ?_, ⟨.literal "" (by decide), by simp [malformedArgv], ?_⟩, by decide⟩
  · have hlong := (all_safe_cmdParseTraced_iff _ _).mp hsafe (.literal "" (by decide))
      (by simp [malformedArgv])
    exact absurd hlong.third (by decide)
  · rintro ⟨o, ho⟩
    cases o <;> revert ho <;> decide

end Wineing
