import SceneCodegen.Number.Integer
import SceneCodegen.Text.Search

/-!
# Arguments

The arguments of the program: the name of a command, then its options in any order. An option may
be shortened to any beginning that no other option of the command shares, and its value may follow
after an equals sign. What cannot be read as a command ends in a short exit: with a help text, or
with the usage.
-/
namespace SceneCodegen.CommandLine

inductive CommandName | generate | scan | watch
  deriving DecidableEq, Repr

def CommandName.ofText? : String → Option CommandName
  | "generate" => some .generate
  | "scan" => some .scan
  | "watch" => some .watch
  | _ => none

structure Command where
  name : CommandName
  project : Option String := none
  symbols : Option String := none
  output : Option String := none
  check : Bool := false
  debounceMs : Option Int := none
  deriving DecidableEq, Repr

/-- Why no command came of the arguments. -/
inductive ShortExit | help | usage
  deriving DecidableEq, Repr

def ShortExit.code : ShortExit → Nat
  | .help => 0
  | .usage => 2

inductive Flag | help | project | symbols | output | check | debounceMs
  deriving DecidableEq, Repr

namespace Flag

def spelling : Flag → String
  | .help => "--help"
  | .project => "--project"
  | .symbols => "--symbols"
  | .output => "--out"
  | .check => "--check"
  | .debounceMs => "--debounce-ms"

def takesValue : Flag → Bool
  | .help | .check => false
  | _ => true

def ofCommand : CommandName → List Flag
  | .generate => [.help, .project, .symbols, .output, .check]
  | .scan => [.help, .project, .symbols]
  | .watch => [.help, .project, .symbols, .output, .debounceMs]

end Flag

/-- What one argument is. -/
inductive Word
  | value (text : String)
  /-- Two dashes alone; what follows are values. -/
  | separator
  | unknown (text : String)
  /-- An option, with the text after its equals sign. -/
  | flag (flag : Flag) (attached : Option String)
  /-- The short option for help, with the letters after it. -/
  | shortHelp (tail : List Char)
  deriving DecidableEq, Repr

/-- Whether a text is a number with a dash in front; a line feed may follow. -/
def isNegativeNumber (cs : List Char) : Bool :=
  let isDigit (c : Char) : Bool := (Number.decimalDigit c).isSome
  match if cs.getLast? == some '\n' then cs.dropLast else cs with
  | '-' :: rest =>
    match rest.dropWhile isDigit with
    | [] => !rest.isEmpty
    | '.' :: fraction => !fraction.isEmpty && fraction.all isDigit
    | _ => false
  | _ => false

/-- An argument with dashes that is no option. -/
def dashedWord (text : String) : Word :=
  if isNegativeNumber text.toList || Text.contains " " text then .value text else .unknown text

/-- The parts of an option before and after its first equals sign. -/
def attachment (text : String) : String × Option String :=
  match Text.cutAt '=' text.toList with
  | some (start, rest) => (String.ofList start, some (String.ofList rest))
  | none => (text, none)

/-- What an argument with two dashes is; nothing, if it may be one of several options. -/
def longWord (flags : List Flag) (text : String) : Option Word :=
  let (start, attached) := attachment text
  match flags.find? (·.spelling == text), flags.find? (·.spelling == start) with
  | some flag, _ => some (.flag flag none)
  | none, some flag => some (.flag flag attached)
  | none, none =>
    match flags.filter fun flag => Text.hasPrefix start flag.spelling with
    | [flag] => some (.flag flag attached)
    | [] => some (dashedWord text)
    | _ => none

def readWord (flags : List Flag) (text : String) : Option Word :=
  match text.toList with
  | '-' :: '-' :: _ => if text == "--" then some .separator else longWord flags text
  | '-' :: 'h' :: tail => some (.shortHelp tail)
  | '-' :: _ :: _ => some (dashedWord text)
  | _ => some (.value text)

/-- Words up to a separator are read one by one, and all after it are values. -/
def readWords (flags : List Flag) : List String → Option (List Word)
  | [] => some []
  | text :: rest => do
    match ← readWord flags text with
    | .separator => return .separator :: rest.map .value
    | word => return word :: (← readWords flags rest)

/-- Where the letters after the short option for help lead: it may be repeated, also after an equals
sign, and all else is too much. -/
def helpExit : List Char → ShortExit
  | ['='] => .usage
  | '=' :: more | more => if more.all (· == 'h') then .help else .usage

def setValue (flag : Flag) (value : String) (c : Command) : Except ShortExit Command :=
  match flag with
  | .project => .ok { c with project := some value }
  | .symbols => .ok { c with symbols := some value }
  | .output => .ok { c with output := some value }
  | .debounceMs =>
    match Number.strictInteger? value with
    | some n => .ok { c with debounceMs := some n }
    | none => .error .usage
  | .help | .check => .ok c

/-- Takes in words one after another. A word that means nothing is let pass and spoils the command
only at the end, so that a call for help behind it still counts. -/
def takeWords (isSpoilt : Bool) (c : Command) : List Word → Except ShortExit Command
  | [] => if isSpoilt then .error .usage else .ok c
  | .value _ :: rest | .unknown _ :: rest => takeWords true c rest
  | .separator :: _ => .error .usage
  | .shortHelp tail :: _ => .error (helpExit tail)
  | .flag flag attached :: rest =>
    if flag.takesValue then
      match attached, rest with
      | some value, rest => do takeWords isSpoilt (← setValue flag value c) rest
      | none, .value value :: rest => do takeWords isSpoilt (← setValue flag value c) rest
      | none, _ => .error .usage
    else if attached.isSome then .error .usage
    else if flag == .help then .error .help
    else takeWords isSpoilt { c with check := true } rest

def readOptions (isSpoilt : Bool) (name : CommandName) (arguments : List String) :
    Except ShortExit Command :=
  match readWords (Flag.ofCommand name) arguments with
  | none => .error .usage
  | some words => takeWords isSpoilt { name } words

/-- Reads the arguments of the program; before the command's name, only help can be asked for. -/
def read (isSpoilt : Bool) : List String → Except ShortExit Command
  | [] => .error .usage
  | text :: rest =>
    match readWord [.help] text with
    | some (.value text) =>
      match CommandName.ofText? text with
      | some name => readOptions isSpoilt name rest
      | none => .error .usage
    | some (.unknown _) => read true rest
    | some (.shortHelp tail) => .error (helpExit tail)
    | some (.flag _ attached) => .error (if attached.isSome then .usage else .help)
    | _ => .error .usage

def Command.ofArguments (arguments : List String) : Except ShortExit Command := read false arguments

end SceneCodegen.CommandLine
