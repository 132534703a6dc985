import Mathlib.Data.List.Induction
import Wineing.ControlProtocol

/-!
# The command line

`cmd_parse` tells the options apart by two characters of an argument and points the
configuration at what follows the first `=`. On documented arguments it keeps, for every
option, the value of the last occurrence, and it gives up exactly when a required option
is missing.
-/

namespace Wineing
open CStringMemory

/-- An argument: the characters before its NUL, in memory that goes on behind it. -/
structure Argument where
  mem : Memory
  chars : Bytes
  isCString : IsCString mem chars

structure CharPtr where
  arg : Argument
  offset : ℤ

/-- The C string that begins at the pointer is `s`. -/
def CharPtr.Points (p : CharPtr) (s : Bytes) : Prop :=
  0 ≤ p.offset ∧ IsCString (fun i => p.arg.mem (p.offset.toNat + i)) s

structure WConf where
  cchanInFqcn : CharPtr
  cchanOutFqcn : CharPtr
  mchanFqcn : CharPtr
  tapeBasedir : CharPtr

/-- The result of `strcspn` is converted to an `int`. -/
def cmdParseOpt (argv : Argument) : CharPtr :=
  let eq : ℤ := (strcspn argv.chars (ascii "=") : ℤ).bmod (2 ^ 32)
  ⟨argv, eq + 1⟩

structure CmdParseState where
  conf : WConf
  allOpts : ℕ

def cmdParseArg (s : CmdParseState) (argv : Argument) : CmdParseState :=
  if argv.mem 2 = 'c'.toUInt8 then
    if argv.mem 8 = 'i'.toUInt8 then
      ⟨{ s.conf with cchanInFqcn := cmdParseOpt argv }, s.allOpts ||| 0x1⟩
    else ⟨{ s.conf with cchanOutFqcn := cmdParseOpt argv }, s.allOpts ||| 0x2⟩
  else if argv.mem 2 = 'm'.toUInt8 then
    ⟨{ s.conf with mchanFqcn := cmdParseOpt argv }, s.allOpts ||| 0x4⟩
  else if argv.mem 2 = 't'.toUInt8 then
    { s with conf := { s.conf with tapeBasedir := cmdParseOpt argv } }
  else s

/-- `cmd_parse`; none where it prints the usage and exits. The first element of `argv` is
the name of the program. -/
def cmdParse (argv : List Argument) (conf : WConf) : Option WConf :=
  let s := argv.tail.foldl cmdParseArg ⟨conf, 0⟩
  if s.allOpts ≠ 7 then none else some s.conf

/-- The options of `cmd_print_usage`. -/
inductive CmdOption
  | cchanIn
  | cchanOut
  | mchan
  | tapeRoot
  deriving DecidableEq

namespace CmdOption

def name : CmdOption → Bytes
  | cchanIn => ascii "--cchan-in"
  | cchanOut => ascii "--cchan-out"
  | mchan => ascii "--mchan"
  | tapeRoot => ascii "--tape-root"

def required : List CmdOption := [cchanIn, cchanOut, mchan]

def bit : CmdOption → ℕ
  | cchanIn => 0x1
  | cchanOut => 0x2
  | mchan => 0x4
  | tapeRoot => 0

end CmdOption

namespace WConf

def field (conf : WConf) : CmdOption → CharPtr
  | .cchanIn => conf.cchanInFqcn
  | .cchanOut => conf.cchanOutFqcn
  | .mchan => conf.mchanFqcn
  | .tapeRoot => conf.tapeBasedir

def setField (conf : WConf) (p : CharPtr) : CmdOption → WConf
  | .cchanIn => { conf with cchanInFqcn := p }
  | .cchanOut => { conf with cchanOutFqcn := p }
  | .mchan => { conf with mchanFqcn := p }
  | .tapeRoot => { conf with tapeBasedir := p }

theorem field_setField (conf : WConf) (p : CharPtr) (o o' : CmdOption) :
    (conf.setField p o).field o' = if o = o' then p else conf.field o' := by
  cases o <;> cases o' <;> rfl

end WConf

/-- The option that the two characters stand for. -/
def Argument.takenFor (argv : Argument) : Option CmdOption :=
  if argv.mem 2 = 'c'.toUInt8 then
    some (if argv.mem 8 = 'i'.toUInt8 then .cchanIn else .cchanOut)
  else if argv.mem 2 = 'm'.toUInt8 then some .mchan
  else if argv.mem 2 = 't'.toUInt8 then some .tapeRoot
  else none

theorem cmdParseArg_eq_takenFor (s : CmdParseState) (argv : Argument) :
    cmdParseArg s argv = match argv.takenFor with
      | some o => ⟨s.conf.setField (cmdParseOpt argv) o, s.allOpts ||| o.bit⟩
      | none => s := by
  unfold cmdParseArg Argument.takenFor
  by_cases hc : argv.mem 2 = 'c'.toUInt8
  · by_cases hi : argv.mem 8 = 'i'.toUInt8 <;> simp only [if_pos hc, hi, if_true, if_false] <;> rfl
  · by_cases hm : argv.mem 2 = 'm'.toUInt8
    · simp only [if_neg hc, if_pos hm]
      rfl
    · by_cases ht : argv.mem 2 = 't'.toUInt8
      · simp [if_neg hc, if_neg hm, if_pos ht, WConf.setField, CmdOption.bit]
      · simp only [if_neg hc, if_neg hm, if_neg ht]

/-- An option, `=` and a value, which may itself contain `=`. -/
structure DocumentedArg where
  arg : Argument
  option : CmdOption
  value : Bytes
  chars_eq : arg.chars = option.name ++ ascii "=" ++ value

namespace DocumentedArg

variable (a : DocumentedArg)

theorem chars_eq_cons : a.arg.chars = a.option.name ++ 61 :: a.value := by
  rw [a.chars_eq, List.append_assoc]
  rfl

theorem cmdParseOpt_eq : cmdParseOpt a.arg = ⟨a.arg, a.option.name.length + 1⟩ := by
  have hall : a.option.name.all (fun c => decide (c ∉ ascii "=")) = true := by
    cases a.option <;> decide
  have hname : ∀ c ∈ a.option.name, c ∉ ascii "=" := fun c hc =>
    of_decide_eq_true (List.all_eq_true.mp hall c hc)
  have heq : strcspn a.arg.chars (ascii "=") = a.option.name.length := by
    rw [a.chars_eq_cons]
    exact strcspn_append hname (by decide)
  have hsmall : (a.option.name.length : ℤ).bmod (2 ^ 32) = a.option.name.length := by
    cases a.option <;> decide
  simp only [cmdParseOpt, heq, hsmall]

theorem points_value : (cmdParseOpt a.arg).Points a.value := by
  have hchars : IsCString a.arg.mem ((a.option.name ++ [61]) ++ a.value) := by
    simpa [a.chars_eq_cons] using a.arg.isCString
  rw [cmdParseOpt_eq]
  refine ⟨Int.natCast_nonneg _, ?_⟩
  have hlength : ((a.option.name.length : ℤ) + 1).toNat = (a.option.name ++ [61]).length := by
    simp
  simpa only [hlength] using hchars.drop

/-- The two characters tell the four options apart. -/
theorem takenFor_eq : a.arg.takenFor = some a.option := by
  have hmem : ∀ {i : ℕ} {b : UInt8}, a.option.name[i]? = some b → a.arg.mem i = b := by
    intro i b hb
    refine a.arg.isCString.getElem? ?_
    rw [a.chars_eq_cons, List.getElem?_append_left (List.getElem?_eq_some_iff.mp hb).1, hb]
  cases ho : a.option with
  | cchanIn =>
    have h2 : a.arg.mem 2 = 'c'.toUInt8 := hmem (by rw [ho]; rfl)
    have h8 : a.arg.mem 8 = 'i'.toUInt8 := hmem (by rw [ho]; rfl)
    rw [Argument.takenFor, if_pos h2, if_pos h8]
  | cchanOut =>
    have h2 : a.arg.mem 2 = 'c'.toUInt8 := hmem (by rw [ho]; rfl)
    have h8 : a.arg.mem 8 = 'o'.toUInt8 := hmem (by rw [ho]; rfl)
    rw [Argument.takenFor, if_pos h2, h8, if_neg (by decide)]
  | mchan =>
    have h2 : a.arg.mem 2 = 'm'.toUInt8 := hmem (by rw [ho]; rfl)
    rw [Argument.takenFor, h2, if_neg (by decide), if_pos rfl]
  | tapeRoot =>
    have h2 : a.arg.mem 2 = 't'.toUInt8 := hmem (by rw [ho]; rfl)
    rw [Argument.takenFor, h2, if_neg (by decide), if_neg (by decide), if_pos rfl]

theorem cmdParseArg_eq (s : CmdParseState) :
    cmdParseArg s a.arg =
      ⟨s.conf.setField (cmdParseOpt a.arg) a.option, s.allOpts ||| a.option.bit⟩ := by
  rw [cmdParseArg_eq_takenFor, a.takenFor_eq]

end DocumentedArg

/-- `allOpts` when the three required options have occurred or not. -/
def optsMask (cchanIn cchanOut mchan : Bool) : ℕ :=
  (if cchanIn then 0x1 else 0) ||| (if cchanOut then 0x2 else 0) ||| (if mchan then 0x4 else 0)

theorem optsMask_eq_seven_iff : ∀ cchanIn cchanOut mchan,
    optsMask cchanIn cchanOut mchan = 7 ↔
      cchanIn = true ∧ cchanOut = true ∧ mchan = true := by
  decide

theorem optsMask_lor_bit (o : CmdOption) : ∀ cchanIn cchanOut mchan,
    optsMask cchanIn cchanOut mchan ||| o.bit =
      optsMask (cchanIn || o = .cchanIn) (cchanOut || o = .cchanOut) (mchan || o = .mchan) := by
  cases o <;> decide

def taken (args : List Argument) (o : CmdOption) : Bool := args.any (fun a => a.takenFor = some o)

theorem allOpts_foldl (conf : WConf) (args : List Argument) :
    (args.foldl cmdParseArg ⟨conf, 0⟩).allOpts =
      optsMask (taken args .cchanIn) (taken args .cchanOut) (taken args .mchan) := by
  induction args using List.reverseRecOn with
  | nil => rfl
  | append_singleton args a ih =>
    rw [List.foldl_append, List.foldl_cons, List.foldl_nil, cmdParseArg_eq_takenFor]
    cases ha : a.takenFor with
    | none => simpa [taken, ha] using ih
    | some o =>
      simp only [ih, optsMask_lor_bit]
      simp [taken, ha]

theorem cmdParse_eq_none_iff (argv : List Argument) (conf : WConf) :
    cmdParse argv conf = none ↔
      ∃ o ∈ CmdOption.required, ∀ a ∈ argv.tail, a.takenFor ≠ some o := by
  have hall : (argv.tail.foldl cmdParseArg ⟨conf, 0⟩).allOpts = 7 ↔
      ∀ o ∈ CmdOption.required, ∃ a ∈ argv.tail, a.takenFor = some o := by
    rw [allOpts_foldl, optsMask_eq_seven_iff]
    simp [taken, CmdOption.required]
  have hmissing : (∃ o ∈ CmdOption.required, ∀ a ∈ argv.tail, a.takenFor ≠ some o) ↔
      ¬ ∀ o ∈ CmdOption.required, ∃ a ∈ argv.tail, a.takenFor = some o := by
    push Not
    rfl
  rw [hmissing, ← hall]
  simp [cmdParse]

def lastArg (args : List DocumentedArg) (o : CmdOption) : Option DocumentedArg :=
  args.findRev? (fun a => a.option = o)

def occurs (args : List DocumentedArg) (o : CmdOption) : Bool := args.any (fun a => a.option = o)

/-- What the loop has made of the arguments it has passed. -/
structure Parsed (conf : WConf) (args : List DocumentedArg) (s : CmdParseState) : Prop where
  field : ∀ o, s.conf.field o =
    ((lastArg args o).map (fun a => cmdParseOpt a.arg)).getD (conf.field o)
  allOpts : s.allOpts = optsMask (occurs args .cchanIn) (occurs args .cchanOut) (occurs args .mchan)

theorem taken_documented (args : List DocumentedArg) (o : CmdOption) :
    taken (args.map DocumentedArg.arg) o = occurs args o := by
  simp [taken, occurs, Function.comp_def, DocumentedArg.takenFor_eq]

private theorem field_snoc {conf : WConf} {args : List DocumentedArg} {s : CmdParseState}
    (h : ∀ o, s.conf.field o =
      ((lastArg args o).map (fun a => cmdParseOpt a.arg)).getD (conf.field o))
    (a : DocumentedArg) (o : CmdOption) : (cmdParseArg s a.arg).conf.field o =
      ((lastArg (args ++ [a]) o).map (fun a => cmdParseOpt a.arg)).getD (conf.field o) := by
  rw [a.cmdParseArg_eq, WConf.field_setField, h o]
  by_cases ho : a.option = o <;> simp [lastArg, List.findRev?_eq_find?_reverse, ho]

theorem parsed_foldl (conf : WConf) (args : List DocumentedArg) :
    Parsed conf args ((args.map DocumentedArg.arg).foldl cmdParseArg ⟨conf, 0⟩) := by
  refine ⟨?_, by simp only [allOpts_foldl, taken_documented]⟩
  induction args using List.reverseRecOn with
  | nil => exact fun o => rfl
  | append_singleton args a ih =>
    rw [List.map_append, List.foldl_append]
    exact field_snoc ih a

/-- Documented arguments are parsed as documented: the usage is printed exactly when a
required option is missing, else every field points at the value of the last occurrence
of its option and keeps its default when there is none. -/
theorem cmdParse_documented (program : Argument) (args : List DocumentedArg) (conf : WConf) :
    (cmdParse (program :: args.map DocumentedArg.arg) conf = none ↔
      ∃ o ∈ CmdOption.required, ∀ a ∈ args, a.option ≠ o) ∧
    ∀ conf', cmdParse (program :: args.map DocumentedArg.arg) conf = some conf' → ∀ o,
      match lastArg args o with
      | some a => (conf'.field o).Points a.value
      | none => conf'.field o = conf.field o := by
  refine ⟨?_, fun conf' h o => ?_⟩
  · rw [cmdParse_eq_none_iff]
    simp [DocumentedArg.takenFor_eq]
  · have hconf : conf' = ((args.map DocumentedArg.arg).foldl cmdParseArg ⟨conf, 0⟩).conf := by
      rw [cmdParse, List.tail_cons] at h
      split at h
      · cases h
      · exact (Option.some.inj h).symm
    have ho := (parsed_foldl conf args).field o
    rw [hconf, ho]
    cases hlast : lastArg args o with
    | none => rfl
    | some a => exact a.points_value

def Argument.literal (text : String) (h : 0 ∉ ascii text) : Argument :=
  ⟨cStr (ascii text), ascii text, isCString_cStr h⟩

def defaultConf : WConf where
  cchanInFqcn := ⟨.literal "tcp://*:9990" (by decide), 0⟩
  cchanOutFqcn := ⟨.literal "tcp://*:9991" (by decide), 0⟩
  mchanFqcn := ⟨.literal "tcp://*:9992" (by decide), 0⟩
  tapeBasedir := ⟨.literal "C:\\md\\" (by decide), 0⟩

def repeatedOption : List DocumentedArg :=
  [⟨.literal "--cchan-in=tcp://*:5" (by decide), .cchanIn, ascii "tcp://*:5", by decide⟩,
    ⟨.literal "--cchan-out=tcp://*:6" (by decide), .cchanOut, ascii "tcp://*:6", by decide⟩,
    ⟨.literal "--mchan=tcp://*:7" (by decide), .mchan, ascii "tcp://*:7", by decide⟩,
    ⟨.literal "--cchan-in=tcp://*:8" (by decide), .cchanIn, ascii "tcp://*:8", by decide⟩]

theorem cmdParse_documented_repeatedOption : ∃ conf,
    cmdParse (.literal "wineing.exe" (by decide) :: repeatedOption.map DocumentedArg.arg)
      defaultConf = some conf ∧
    (conf.field .cchanIn).Points (ascii "tcp://*:8") ∧
    conf.field .tapeRoot = defaultConf.field .tapeRoot := by
  obtain ⟨husage, hfields⟩ :=
    cmdParse_documented (.literal "wineing.exe" (by decide)) repeatedOption defaultConf
  have hparsed : cmdParse (.literal "wineing.exe" (by decide) ::
      repeatedOption.map DocumentedArg.arg) defaultConf ≠ none := fun hnone =>
    absurd (husage.mp hnone) (by simp [repeatedOption, CmdOption.required])
  obtain ⟨conf, hconf⟩ := Option.ne_none_iff_exists'.mp hparsed
  exact ⟨conf, hconf, hfields conf hconf .cchanIn, hfields conf hconf .tapeRoot⟩

end Wineing
