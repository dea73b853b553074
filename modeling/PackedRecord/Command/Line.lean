import PackedRecord.Options

/-!
# The command line

What a command line asks for. Options are given by a long name, some by a
letter too. A value follows as the next argument or is attached: behind an
equals sign, or right behind the letter. Letters may be joined. Two dashes
end the options, and a single dash is an ordinary argument.

The flags that set policies may stand before or after the name of the
subcommand. No option may be given twice on one side of it, except for the
one that counts. Whatever is not accepted here is a usage error, and one is
like another.
-/

namespace PackedRecord.Command

/-! ## Options -/

/-- What an option takes. -/
inductive Arity where
  | flag
  /-- A flag that may be repeated. -/
  | counted
  | value
deriving DecidableEq

structure OptionRule where
  name : String
  letter? : Option Char := none
  arity : Arity

/-- The options that stand on either side of the subcommand. -/
def commonRules : List OptionRule :=
  [{ name := "ignore-extra", arity := .flag },
    { name := "lenient-strings", arity := .flag },
    { name := "lossy-utf8", arity := .flag },
    { name := "verbose", letter? := some 'v', arity := .counted }]

def packRules : List OptionRule :=
  [{ name := "format", letter? := some 'f', arity := .value },
    { name := "output", letter? := some 'o', arity := .value }] ++ commonRules

def unpackRules : List OptionRule :=
  [{ name := "format", letter? := some 'f', arity := .value },
    { name := "hex", arity := .value },
    { name := "input", letter? := some 'i', arity := .value },
    { name := "offset", arity := .value },
    { name := "pretty", arity := .flag }] ++ commonRules

def sizeRules : List OptionRule :=
  [{ name := "format", letter? := some 'f', arity := .value }] ++ commonRules

/-! ## Scanning -/

/-- What was given: flags and options with their values, and the rest. -/
structure Given where
  flags : List String := []
  values : List (String × String) := []
  positional : List String := []

namespace Given

def addFlag (g : Given) (rule : OptionRule) : Option Given :=
  if rule.arity ≠ .counted && g.flags.contains rule.name then none
  else some { g with flags := rule.name :: g.flags }

def addValue (g : Given) (rule : OptionRule) (text : String) : Option Given :=
  if (g.values.lookup rule.name).isSome then none
  else some { g with values := (rule.name, text) :: g.values }

def addPositional (g : Given) (texts : List String) : Given :=
  { g with positional := g.positional ++ texts }

def value? (g : Given) (name : String) : Option String := g.values.lookup name

def has (g : Given) (name : String) : Bool := g.flags.contains name

end Given

/-- Whether an argument can be a value of its own: it does not look like an option. -/
def isPlain (argument : String) : Bool :=
  match argument.toList with
  | '-' :: _ :: _ => false
  | _ => true

/-- The text behind an attached value's equals sign, if there is one. -/
def dropEquals : List Char → List Char
  | '=' :: text => text
  | text => text

/-- Joined letters. At the end the option that still needs a value, if any. -/
def scanLetters (rules : List OptionRule) (g : Given) :
    List Char → Option (Given × Option OptionRule)
  | [] => some (g, none)
  | c :: rest => do
    let rule ← rules.find? fun rule => rule.letter? = some c
    match rule.arity with
    | .value =>
      if rest.isEmpty then return (g, some rule)
      else return (← g.addValue rule (String.ofList (dropEquals rest)), none)
    | _ => scanLetters rules (← g.addFlag rule) rest

/-- A long name, with a value attached or not. -/
def scanName (rules : List OptionRule) (g : Given) (text : List Char) :
    Option (Given × Option OptionRule) := do
  let name := String.ofList (text.takeWhile (· != '='))
  let rule ← rules.find? fun rule => rule.name = name
  match rule.arity, text.dropWhile (· != '=') with
  | .value, [] => return (g, some rule)
  | .value, _ :: attached => return (← g.addValue rule (String.ofList attached), none)
  | _, [] => return (← g.addFlag rule, none)
  | _, _ :: _ => none

/-- One argument that looks like an option. -/
def scanOption (rules : List OptionRule) (g : Given) (argument : String) :
    Option (Given × Option OptionRule) :=
  match argument.toList with
  | '-' :: '-' :: text => scanName rules g text
  | '-' :: letters => scanLetters rules g letters
  | _ => none

/-- All arguments of a subcommand. -/
def scan (rules : List OptionRule) (g : Given) : List String → Option Given
  | [] => some g
  | argument :: rest =>
    if isPlain argument then scan rules (g.addPositional [argument]) rest
    else if argument = "--" then some (g.addPositional rest)
    else match scanOption rules g argument with
      | none => none
      | some (g, none) => scan rules g rest
      | some (g, some rule) =>
        match rest with
        | text :: rest =>
          if isPlain text then
            match g.addValue rule text with
            | some g => scan rules g rest
            | none => none
          else none
        | [] => none

/-- The options before the subcommand, its name, and the arguments after it. -/
def scanSubcommand (g : Given) : List String → Option (Given × String × List String)
  | [] => none
  | argument :: rest =>
    if isPlain argument then some (g, argument, rest)
    else match scanOption commonRules g argument with
      | some (g, none) => scanSubcommand g rest
      | _ => none

/-! ## Invocations -/

/-- Where the bytes to unpack come from. -/
inductive Source where
  | hex (digits : String)
  /-- A file, or standard input if the path is a single dash. -/
  | input (path : String)
deriving DecidableEq

inductive Invocation where
  | pack (format values : String) (output? : Option String)
  | unpack (format : String) (source : Source) (offset : Nat) (pretty : Bool)
  | size (format : String) (values? : Option String)
deriving DecidableEq

/-- An unsigned 64-bit number, a plus sign before it being allowed. -/
def unsigned? (text : String) : Option Nat :=
  let digits := match text.toList with
    | '+' :: rest => rest
    | rest => rest
  if digits.isEmpty || !digits.all Char.isDigit then none
  else
    let n := digits.foldl (fun n c => 10 * n + (c.toNat - '0'.toNat)) 0
    if n < UInt64.size then some n else none

def packOf (g : Given) : Option Invocation := do
  let format ← g.value? "format"
  match g.positional with
  | [values] => return .pack format values (g.value? "output")
  | _ => none

/-- Exactly one source has to be given. -/
def sourceOf (g : Given) : Option Source :=
  match g.value? "hex", g.value? "input" with
  | some digits, none => some (.hex digits)
  | none, some path => some (.input path)
  | _, _ => none

def unpackOf (g : Given) : Option Invocation := do
  let format ← g.value? "format"
  let source ← sourceOf g
  let offset ← unsigned? ((g.value? "offset").getD "0")
  if g.positional.isEmpty then return .unpack format source offset (g.has "pretty") else none

def sizeOf (g : Given) : Option Invocation := do
  let format ← g.value? "format"
  match g.positional with
  | [] => return .size format none
  | [values] => return .size format (some values)
  | _ => none

/-- The policies that the flags on either side of the subcommand set. -/
def optionsOf (before after : Given) : Options :=
  let has (name : String) : Bool := before.has name || after.has name
  { extraValues := if has "ignore-extra" then .ignore else .reject
    unterminatedStrings := if has "lenient-strings" then .accept else .reject
    invalidUtf8 := if has "lossy-utf8" then .lossy else .strict }

/-- What a command line asks for; `none` is a usage error. -/
def parseLine (arguments : List String) : Option (Options × Invocation) := do
  let (before, name, rest) ← scanSubcommand {} arguments
  let (rules, build) ← match name with
    | "pack" => some (packRules, packOf)
    | "unpack" => some (unpackRules, unpackOf)
    | "size" => some (sizeRules, sizeOf)
    | _ => none
  let after ← scan rules {} rest
  let invocation ← build after
  return (optionsOf before after, invocation)

end PackedRecord.Command
