import SchemaGrammar.Command.Invocation

/-!
# Reading a command line

A flag is a switch, takes one value, or takes one value after another up to the next flag. A value
follows its flag as an argument of its own, after an equals sign, or, for a flag of one letter,
right away. Letters of switches may be drawn together. A value that is attached to its flag is the
only one of this occurrence. After `--` nothing is a flag any more, and since no command takes bare
arguments nothing may follow it.

## Main definitions

* `Occurrence`: a flag with the values given to it there.
* `occurrences`: the flags of a command line in order.
* `Invocation.ofArguments`: the whole command line.
-/

namespace SchemaGrammar

namespace Command

/-- How many values one occurrence of a flag takes. -/
inductive Arity where
  | none
  | one
  | some
deriving Repr, DecidableEq

/-- The flags of all commands. -/
inductive Flag where
  | verbose
  | input
  | definitions
  | noNewLines
  | padSpaces
  | trailingNewLines
  | outDirectory
  | outlineOnly
  | schema
  | lineByLine
deriving Repr, DecidableEq

namespace Flag

/-- The name of a flag, which follows two hyphens. -/
def name : Flag → String
  | verbose => "verbose"
  | input => "input"
  | definitions => "defs"
  | noNewLines => "no-new-lines"
  | padSpaces => "pad-spaces"
  | trailingNewLines => "trailing-new-lines"
  | outDirectory => "out-dir"
  | outlineOnly => "no-op"
  | schema => "schema"
  | lineByLine => "ndjson"

/-- The letter of a flag, which follows one hyphen. -/
def letter? : Flag → Option Char
  | verbose => some 'v'
  | input => some 'i'
  | outDirectory => some 'o'
  | schema => some 's'
  | _ => none

/-- How many values a flag takes. -/
def arity : Flag → Arity
  | verbose | noNewLines | outlineOnly | lineByLine => .none
  | input => .some
  | definitions | padSpaces | trailingNewLines | outDirectory | schema => .one

/-- The flags that may stand before the command. -/
def common : List Flag := [verbose]

/-- The flags of `grammar`. -/
def ofGrammar : List Flag :=
  [verbose, input, definitions, noNewLines, padSpaces, trailingNewLines, outDirectory, outlineOnly]

/-- The flags of `validate`. -/
def ofValidate : List Flag := [verbose, schema, input, definitions, lineByLine]

end Flag

/-- What is wrong with a command line. -/
inductive UsageError where
  | noCommand
  | unknownCommand (name : String)
  | unknownFlag (name : String)
  | needlessValue (flag : Flag) (value : String)
  | missingValue (flag : Flag)
  | badValue (flag : Flag) (value : String)
  | repeated (flag : Flag)
  | required (flag : Flag)
  | stray (argument : String)
deriving Repr, DecidableEq

/-- The wording of such an error. -/
def UsageError.message : UsageError → String
  | noCommand => "a command is required: grammar or validate"
  | unknownCommand name => "unknown command: " ++ name
  | unknownFlag name => "unknown flag: " ++ name
  | needlessValue flag value => "--" ++ flag.name ++ " takes no value: " ++ value
  | missingValue flag => "--" ++ flag.name ++ " needs a value"
  | badValue flag value => "not a value of --" ++ flag.name ++ ": " ++ value
  | repeated flag => "--" ++ flag.name ++ " is given more than once"
  | required flag => "--" ++ flag.name ++ " is required"
  | stray argument => "unexpected argument: " ++ argument

/-- A flag with the values given to it at one place. -/
structure Occurrence where
  flag : Flag
  values : List String
  /-- Whether the next argument may be a value of this occurrence. -/
  isOpen : Bool
deriving Repr, DecidableEq

namespace Occurrence

/-- A flag without an attached value. -/
def bare (flag : Flag) : Occurrence := ⟨flag, [], flag.arity != .none⟩

/-- A flag with the one value attached to it. -/
def attached (flag : Flag) (value : String) : Except UsageError Occurrence :=
  if flag.arity = .none then .error (.needlessValue flag value) else .ok ⟨flag, [value], false⟩

/-- The occurrence with one more value. -/
def withValue (o : Occurrence) (value : String) : Occurrence :=
  { o with values := o.values ++ [value], isOpen := o.flag.arity == .some }

end Occurrence

/-! ## Flags -/

/-- Reads what follows two hyphens. -/
def longOccurrence (flags : List Flag) (chars : List Char) : Except UsageError Occurrence := do
  let name := String.ofList (chars.takeWhile (· != '='))
  match flags.find? (·.name == name) with
  | none => throw (.unknownFlag ("--" ++ name))
  | some flag =>
    match chars.dropWhile (· != '=') with
    | [] => return .bare flag
    | _ :: value => Occurrence.attached flag (String.ofList value)

/-- Reads what follows one hyphen: letters of switches, and perhaps one of a flag with a value. -/
def shortOccurrences (flags : List Flag) : List Char → Except UsageError (List Occurrence)
  | [] => return []
  | c :: rest => do
    match flags.find? (·.letter? == some c) with
    | none => throw (.unknownFlag ("-" ++ c.toString))
    | some flag =>
      if flag.arity = .none then return .bare flag :: (← shortOccurrences flags rest)
      match rest with
      | [] => return [.bare flag]
      | '=' :: value => return [← Occurrence.attached flag (String.ofList value)]
      | value => return [← Occurrence.attached flag (String.ofList value)]

/-- Gives an argument to the last occurrence, if that one takes more values. -/
def giveValue (found : List Occurrence) (value : String) : Except UsageError (List Occurrence) :=
  match found.getLast? with
  | some o =>
    if o.isOpen then .ok (found.dropLast ++ [o.withValue value]) else .error (.stray value)
  | none => .error (.stray value)

/-- The flags of a command line in order, after those in `found`. -/
def occurrencesFrom (flags : List Flag) (found : List Occurrence) :
    List String → Except UsageError (List Occurrence)
  | [] => return found
  | argument :: rest => do
    match argument.toList with
    | ['-', '-'] =>
      match rest with
      | [] => return found
      | next :: _ => throw (.stray next)
    | '-' :: '-' :: chars => occurrencesFrom flags (found ++ [← longOccurrence flags chars]) rest
    | '-' :: c :: chars =>
      occurrencesFrom flags (found ++ (← shortOccurrences flags (c :: chars))) rest
    | _ => occurrencesFrom flags (← giveValue found argument) rest

/-- The flags of a command line in order. -/
def occurrences (flags : List Flag) (arguments : List String) :
    Except UsageError (List Occurrence) := do
  let found ← occurrencesFrom flags [] arguments
  match found.find? fun o => o.flag.arity != .none && o.values.isEmpty with
  | some o => throw (.missingValue o.flag)
  | none => return found

/-! ## Values -/

/-- The values given to a flag, at all its places. -/
def valuesOf (flag : Flag) (found : List Occurrence) : List String :=
  (found.filter (·.flag == flag)).flatMap Occurrence.values

/-- The value of a flag that may be given once. -/
def valueOf? (flag : Flag) (found : List Occurrence) : Except UsageError (Option String) :=
  match valuesOf flag found with
  | [] => .ok none
  | [value] => .ok (some value)
  | _ => .error (.repeated flag)

/-- Whether a switch is given; it may be given once. -/
def isOn (flag : Flag) (found : List Occurrence) : Except UsageError Bool :=
  match found.filter (·.flag == flag) with
  | [] => .ok false
  | [_] => .ok true
  | _ => .error (.repeated flag)

/-- A path that may be given once; it is never empty. -/
def pathOf? (flag : Flag) (found : List Occurrence) : Except UsageError (Option String) := do
  match ← valueOf? flag found with
  | some "" => throw (.badValue flag "")
  | path => return path

/-- A number in decimal digits, below `limit`. A plus sign may precede it. -/
def naturalBelow? (limit : Nat) (chars : List Char) : Option Nat :=
  let digits := if chars.head? == some '+' then chars.drop 1 else chars
  if digits.isEmpty || !digits.all Char.isDigit then none
  else
    let n := digits.foldl (fun n c => n * 10 + (c.toNat - '0'.toNat)) 0
    if n < limit then some n else none

/-- A number below `limit` as above; zero may also be written with a minus sign. -/
def signedBelow? (limit : Nat) : List Char → Option Nat
  | '-' :: c :: chars => if c.isDigit then naturalBelow? 1 (c :: chars) else none
  | chars => naturalBelow? limit chars

/-- A number that may be given once. -/
def numberOf (flag : Flag) (read : List Char → Option Nat) (absent : Nat)
    (found : List Occurrence) : Except UsageError Nat := do
  match ← valueOf? flag found with
  | none => return absent
  | some text =>
    match read text.toList with
    | some n => return n
    | none => throw (.badValue flag text)

/-! ## Commands -/

/-- The inputs of a command. -/
def Inputs.ofOccurrences (found : List Occurrence) : Except UsageError Inputs := do
  let patterns := valuesOf .input found
  if patterns.isEmpty then throw (.required .input)
  return { patterns, definitions := ← pathOf? .definitions found }

/-- The settings of `grammar`. -/
def GrammarCommand.ofOccurrences (found : List Occurrence) : Except UsageError GrammarCommand :=
  return {
    inputs := ← Inputs.ofOccurrences found
    noNewLines := ← isOn .noNewLines found
    padSpaces := ← numberOf .padSpaces (signedBelow? UInt32.size) 4 found
    trailingNewLines := ← numberOf .trailingNewLines (naturalBelow? UInt64.size) 4 found
    outDirectory := ← pathOf? .outDirectory found
    outlineOnly := ← isOn .outlineOnly found }

/-- The settings of `validate`. -/
def ValidateCommand.ofOccurrences (found : List Occurrence) :
    Except UsageError ValidateCommand := do
  match ← pathOf? .schema found with
  | none => throw (.required .schema)
  | some schema =>
    return {
      schema
      inputs := ← Inputs.ofOccurrences found
      lineByLine := ← isOn .lineByLine found }

/-- A command by its name, and the flags it takes. -/
def command? : String → Option (List Flag × (List Occurrence → Except UsageError Action))
  | "grammar" =>
    some (Flag.ofGrammar, fun found => .grammar <$> GrammarCommand.ofOccurrences found)
  | "validate" =>
    some (Flag.ofValidate, fun found => .validate <$> ValidateCommand.ofOccurrences found)
  | _ => none

/-- Understands a command line: flags that belong to all commands, the command, its flags. -/
def Invocation.ofArguments (arguments : List String) : Except UsageError Invocation := do
  let leading := arguments.takeWhile fun a => (command? a).isNone
  match arguments.drop leading.length with
  | [] =>
    match leading.find? fun a => !(a.toList.head? == some '-') with
    | some name => throw (.unknownCommand name)
    | none => throw .noCommand
  | name :: arguments =>
    if leading.contains "--" then throw (.stray name)
    match command? name with
    | none => throw (.unknownCommand name)
    | some (flags, action) =>
      let before ← occurrences Flag.common leading
      let found ← occurrences flags arguments
      let verboseBefore ← isOn .verbose before
      let verboseAfter ← isOn .verbose found
      return { verbose := verboseBefore || verboseAfter, action := ← action found }

end Command

end SchemaGrammar
