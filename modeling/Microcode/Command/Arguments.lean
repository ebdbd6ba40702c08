/-!
# Microcode.Command.Arguments

Reading the arguments of a command.

An option is written `--name VALUE`, `--name=VALUE`, `-n VALUE`, `-nVALUE` or `-n=VALUE`, and may
stand before, between and after the other arguments.  It may be given once.  Options and other
arguments take only values that they accept, and the first wrong argument ends the reading.  An
argument that begins with a dash is an option, unless it is a dash alone or stands after the argument
`--`.
-/

namespace Microcode

/-- What a command writes, and its exit status. -/
structure Outcome where
  exit : Nat := 0
  output : String := ""
  errors : String := ""
deriving DecidableEq, Repr

/-- An option of a command. -/
structure OptionSpec where
  long : String
  short : Option Char := none
  accepts : String → Bool := fun _ => true

/-- Why the arguments do not say what to do. -/
inductive ArgumentStop where
  /-- The arguments are wrong. -/
  | usage
  | help
  | version
deriving DecidableEq, Repr

/-- What the arguments of a command say. -/
structure Arguments where
  options : List (String × String) := []
  positional : List String := []
deriving DecidableEq, Repr

/-- The form of a command: its options, which values its other arguments accept, one after the
other, and whether it shows its version. -/
structure ArgumentForm where
  options : List OptionSpec := []
  positional : List (String → Bool) := []
  versioned : Bool := false

/-- Accepts every value. -/
def anyValue (_ : String) : Bool := true

/-- Accepts what can be the path of a file. -/
def isPath (s : String) : Bool := s != ""

namespace Arguments

/-- The value given for an option. -/
def value? (a : Arguments) (name : String) : Option String := a.options.lookup name

end Arguments

/-- Whether an argument is written like an option. -/
def isDashed (arg : String) : Bool :=
  match arg.toList with
  | '-' :: _ :: _ => true
  | _ => false

/-- An argument that is written like an option. -/
inductive Dashed where
  | long (name : String) (value : Option String)
  | short (letter : Char) (value : Option String)
deriving DecidableEq, Repr

/-- Takes a dashed argument apart. -/
def Dashed.ofArgument? (arg : String) : Option Dashed :=
  match arg.toList with
  | '-' :: '-' :: rest =>
    let name := String.ofList (rest.takeWhile (· != '='))
    match rest.dropWhile (· != '=') with
    | [] => some (.long name none)
    | _ :: value => some (.long name (some (String.ofList value)))
  | ['-', letter] => some (.short letter none)
  | '-' :: letter :: '=' :: value => some (.short letter (some (String.ofList value)))
  | '-' :: letter :: value => some (.short letter (some (String.ofList value)))
  | _ => none

namespace ArgumentForm

/-- The option that a dashed argument means, and the value in the same argument.  Help and version
are asked for by options without value. -/
def find (f : ArgumentForm) : Dashed → Except ArgumentStop (OptionSpec × Option String)
  | .long name value =>
    match f.options.find? (·.long == name) with
    | some spec => .ok (spec, value)
    | none =>
      if name == "help" && value.isNone then .error .help
      else if f.versioned && name == "version" && value.isNone then .error .version
      else .error .usage
  | .short letter value =>
    match f.options.find? (·.short == some letter) with
    | some spec => .ok (spec, value)
    | none =>
      if letter == 'h' then .error .help
      else if f.versioned && letter == 'V' then .error .version
      else .error .usage

/-- Adds the value of an option. -/
def addOption (a : Arguments) (spec : OptionSpec) (value : String) :
    Except ArgumentStop Arguments :=
  if (a.value? spec.long).isSome || !spec.accepts value then .error .usage
  else .ok { a with options := a.options ++ [(spec.long, value)] }

/-- Adds an argument that is no option. -/
def addPositional (f : ArgumentForm) (a : Arguments) (arg : String) :
    Except ArgumentStop Arguments :=
  match f.positional[a.positional.length]? with
  | none => .error .usage
  | some accepts =>
    if accepts arg then .ok { a with positional := a.positional ++ [arg] } else .error .usage

/-- Reads arguments after those already read. -/
def readFrom (f : ArgumentForm) (a : Arguments) : List String → Except ArgumentStop Arguments
  | [] => .ok a
  | arg :: rest =>
    if arg == "--" then rest.foldlM f.addPositional a
    else
      match Dashed.ofArgument? arg with
      | none => do readFrom f (← f.addPositional a arg) rest
      | some dashed => do
        match ← f.find dashed with
        | (spec, some value) => readFrom f (← addOption a spec value) rest
        | (spec, none) =>
          match rest with
          | [] => throw .usage
          | value :: rest =>
            if isDashed value then throw .usage
            else readFrom f (← addOption a spec value) rest

/-- Reads the arguments of a command, all of which must be there. -/
def read (f : ArgumentForm) (args : List String) : Except ArgumentStop Arguments := do
  let a ← f.readFrom {} args
  if a.positional.length = f.positional.length then return a else throw .usage

end ArgumentForm

/-- The exit status of wrong arguments. -/
def usageExit : Nat := 2

/-- The outcome of arguments that do not say what to do. -/
def ArgumentStop.outcome (usage version : String) : ArgumentStop → Outcome
  | .usage => { exit := usageExit, errors := usage }
  | .help => { output := usage }
  | .version => { output := version }

end Microcode
