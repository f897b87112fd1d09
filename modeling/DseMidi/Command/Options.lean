/-!
# DseMidi.Command.Options

**Taking a command line apart** into options and operands.

An option has a long name and perhaps a letter. Letters can stand together behind one
hyphen. A value stands behind an equals sign, directly behind the letter, or in the next
argument; the next argument is not taken for a value if it looks like an option. Two
hyphens alone end the options, one hyphen alone is an operand or a value. Each option can
be given once, no value or operand is empty, and a command may limit its operands.

A command line is read from left to right, and the first thing that is wrong with it
ends the reading. So does an option that asks for a text about the command: it is
answered whatever stands behind it, but only if all in front of it is in order.
-/

namespace DseMidi

/-! ### What a command accepts -/

/-- What giving an option means. -/
inductive OptionKind
  /-- Something is turned on. -/
  | flag
  /-- A value is given. -/
  | value
  /-- A text about the command is wanted and nothing else. -/
  | notice (text : String)
  deriving DecidableEq

/-- An option that a command knows. -/
structure OptionSpec where
  long : String
  short : Option Char
  kind : OptionKind

/-- The command lines that a command accepts. -/
structure CommandSpec where
  options : List OptionSpec
  /-- The most operands that there may be, if there is a limit. -/
  operandLimit : Option Nat

/-- Whether no operand may follow a number of them. -/
def CommandSpec.isFull (spec : CommandSpec) (operands : Nat) : Bool :=
  spec.operandLimit.any (· ≤ operands)

/-! ### How reading ends early -/

/-- What is wrong with a command line. -/
inductive UsageFault
  | unknownOption (argument : String)
  | missingValue (option : String)
  | unexpectedValue (option : String)
  | repeatedOption (option : String)
  | emptyValue
  | missingInput
  | extraOperand (operand : String)
  deriving DecidableEq

/-- The wording of a usage fault. -/
def UsageFault.message : UsageFault → String
  | unknownOption argument => "unexpected argument '" ++ argument ++ "'"
  | missingValue option => "a value is required for '--" ++ option ++ "'"
  | unexpectedValue option => "no value is expected for '--" ++ option ++ "'"
  | repeatedOption option => "'--" ++ option ++ "' cannot be used multiple times"
  | emptyValue => "a value must not be empty"
  | missingInput => "no input was given"
  | extraOperand operand => "unexpected argument '" ++ operand ++ "'"

/-- Why the reading of a command line ends before its end. -/
inductive Interruption
  | fault (cause : UsageFault)
  /-- The text that an option asked for. -/
  | notice (text : String)
  deriving DecidableEq

/-! ### What was given -/

/-- An option that was given, by its long name, with its value if it takes one. -/
structure Setting where
  option : String
  value : Option String
  deriving DecidableEq

/-- A command line taken apart. -/
structure Arguments where
  settings : List Setting
  operands : List String

namespace Arguments

/-- The empty command line. -/
def empty : Arguments := ⟨[], []⟩

/-- Whether an option was given. -/
def has (arguments : Arguments) (option : String) : Bool :=
  arguments.settings.any (·.option = option)

/-- The value of an option, if it was given. -/
def value? (arguments : Arguments) (option : String) : Option String :=
  (arguments.settings.find? (·.option = option)).bind (·.value)

/-- The arguments with a further option, which must be new. -/
def addSetting (arguments : Arguments) (setting : Setting) : Except Interruption Arguments :=
  if arguments.has setting.option then .error (.fault (.repeatedOption setting.option))
  else if setting.value = some "" then .error (.fault .emptyValue)
  else .ok { arguments with settings := arguments.settings ++ [setting] }

/-- The arguments with a further operand, if there may be one. -/
def addOperand (spec : CommandSpec) (arguments : Arguments) (operand : String) :
    Except Interruption Arguments :=
  if spec.isFull arguments.operands.length then .error (.fault (.extraOperand operand))
  else if operand = "" then .error (.fault .emptyValue)
  else .ok { arguments with operands := arguments.operands ++ [operand] }

end Arguments

/-! ### Reading single arguments -/

/-- How far a command line has been read. -/
structure Reading where
  arguments : Arguments
  /-- An option whose value must come next. -/
  awaiting : Option String

namespace Reading

/-- The reading behind an option, with the value that is attached to it. -/
def give (arguments : Arguments) (option : OptionSpec) (attached : Option String) :
    Except Interruption Reading :=
  match option.kind, attached with
  | .value, none => .ok ⟨arguments, some option.long⟩
  | .value, some value => (arguments.addSetting ⟨option.long, value⟩).map (⟨·, none⟩)
  | .flag, none => (arguments.addSetting ⟨option.long, none⟩).map (⟨·, none⟩)
  | .notice text, none => .error (.notice text)
  | .flag, some _ | .notice _, some _ => .error (.fault (.unexpectedValue option.long))

/-- Reads a long option, without its hyphens. -/
def long (spec : CommandSpec) (arguments : Arguments) (argument : List Char) :
    Except Interruption Reading :=
  let name := String.ofList (argument.takeWhile (· ≠ '='))
  match spec.options.find? (·.long = name) with
  | none => .error (.fault (.unknownOption ("--" ++ name)))
  | some option =>
    give arguments option ((argument.dropWhile (· ≠ '=')).tail?.map String.ofList)

/-- Reads letters that stand together. -/
def letters (spec : CommandSpec) (arguments : Arguments) :
    List Char → Except Interruption Reading
  | [] => .ok ⟨arguments, none⟩
  | letter :: rest =>
    match spec.options.find? (·.short = some letter) with
    | none => .error (.fault (.unknownOption (String.ofList ['-', letter])))
    | some option =>
      -- Behind the letter of an option with a value, the rest is no longer letters.
      match option.kind, rest with
      | .value, [] => give arguments option none
      | .value, '=' :: value => give arguments option (some (String.ofList value))
      | .value, value => give arguments option (some (String.ofList value))
      | _, rest => do
        let reading ← give arguments option none
        letters spec reading.arguments rest

end Reading

/-! ### Reading whole command lines -/

namespace Arguments

/-- Whether an argument cannot be an operand or a value. -/
def looksLikeOption (argument : List Char) : Bool :=
  match argument with
  | ['-'] => false
  | '-' :: _ => true
  | _ => false

/-- Reads the remaining arguments of a command line. -/
def readFrom (spec : CommandSpec) : Reading → List String → Except Interruption Arguments
  | ⟨arguments, none⟩, [] => .ok arguments
  | ⟨_, some option⟩, [] => .error (.fault (.missingValue option))
  | ⟨arguments, some option⟩, argument :: rest =>
    if looksLikeOption argument.toList then .error (.fault (.missingValue option))
    else do
      let arguments ← arguments.addSetting ⟨option, argument⟩
      readFrom spec ⟨arguments, none⟩ rest
  | ⟨arguments, none⟩, argument :: rest =>
    match argument.toList with
    -- All behind this one is operands, whatever it looks like.
    | ['-', '-'] => rest.foldlM (addOperand spec) arguments
    | '-' :: '-' :: long => do
      let reading ← Reading.long spec arguments long
      readFrom spec reading rest
    | '-' :: letter :: more => do
      let reading ← Reading.letters spec arguments (letter :: more)
      readFrom spec reading rest
    | _ => do
      let arguments ← arguments.addOperand spec argument
      readFrom spec ⟨arguments, none⟩ rest

/-- Takes a command line apart. -/
def ofList (spec : CommandSpec) (arguments : List String) : Except Interruption Arguments :=
  readFrom spec ⟨empty, none⟩ arguments

end Arguments

end DseMidi
