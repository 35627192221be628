/-!
# Command line of the runner

Options with values are `--input` (`-i`), `--filter` and `--max-depth`; switches are `--subset`,
`--no-color`, `--list` and `--help` (`-h`). An input option takes every value up to the next option
and may be repeated; everything else may be given once. The values of an option are examined when
the next known option is met, or at the end; an unknown option or a stray value is met before that.

Results:
* `Arguments.ofList`: the arguments of a command line, or what is wrong with it.
-/

namespace Conformance

/-- The arguments of a run. -/
structure Arguments where
  inputs : List String
  /-- only run cases whose name contains this -/
  filter : Option String
  /-- tolerate undeclared keys in every case -/
  subset : Bool
  maxDepth : Option Nat
  color : Bool
  /-- print the catalogue and run nothing -/
  list : Bool

/-- Why a command line is refused. A question for help is no failure, but it runs nothing either. -/
inductive UsageError where
  | help
  | unknownArgument
  | missingValue
  | invalidValue
  | repeatedOption
  | unneededValue
  | missingInput
  deriving DecidableEq, Repr

namespace Arguments

/-! ## Options -/

/-- The options with values. -/
inductive ValueOption where
  | input
  | filter
  | maxDepth
  deriving DecidableEq, Repr

/-- The options without values. -/
inductive Switch where
  | subset
  | noColor
  | list
  | help
  deriving DecidableEq, Repr

def ValueOption.ofText? : String → Option ValueOption
  | "input" => some input
  | "filter" => some filter
  | "max-depth" => some maxDepth
  | _ => none

def Switch.ofText? : String → Option Switch
  | "subset" => some subset
  | "no-color" => some noColor
  | "list" => some list
  | "help" => some help
  | _ => none

/-! ## Values -/

/-- The greatest depth limit. -/
def maxLimit : Nat := (1 <<< 64) - 1

/-- A depth limit: decimal digits, with a plus sign in front or without. -/
def limitOfText? (text : String) : Option Nat :=
  let digits :=
    match text.toList with
    | '+' :: rest => rest
    | cs => cs
  if digits.isEmpty || !digits.all Char.isDigit then none
  else
    let n := digits.foldl (fun n c => 10 * n + (c.toNat - '0'.toNat)) 0
    if n ≤ maxLimit then some n else none

/-! ## Reading -/

/-- What has been read of a command line. -/
structure Draft where
  inputs : List String := []
  filter : Option String := none
  maxDepth : Option Nat := none
  subset : Bool := false
  noColor : Bool := false
  list : Bool := false
  /-- an option whose values have not been examined -/
  pending : Option (ValueOption × List String) := none

namespace Draft

/-- Enters the values of an option. -/
def store (d : Draft) (option : ValueOption) (values : List String) : Except UsageError Draft :=
  match option, values with
  | _, [] => .error .missingValue
  | .input, _ => .ok { d with inputs := d.inputs ++ values }
  | .filter, value :: _ =>
    if d.filter.isSome then .error .repeatedOption else .ok { d with filter := some value }
  | .maxDepth, value :: _ =>
    if d.maxDepth.isSome then .error .repeatedOption
    else
      match limitOfText? value with
      | some n => .ok { d with maxDepth := some n }
      | none => .error .invalidValue

/-- Enters the values that were not examined yet. -/
def settle (d : Draft) : Except UsageError Draft :=
  match d.pending with
  | some (option, values) => { d with pending := none }.store option values
  | none => .ok d

/-- Begins an option whose values follow. -/
def begin (d : Draft) (option : ValueOption) : Except UsageError Draft := do
  let d ← d.settle
  .ok { d with pending := some (option, []) }

/-- Enters an option together with its value. -/
def attach (d : Draft) (option : ValueOption) (value : String) : Except UsageError Draft := do
  let d ← d.settle
  d.store option [value]

/-- Sets a switch. -/
def turnOn (d : Draft) (switch : Switch) : Except UsageError Draft := do
  let d ← d.settle
  match switch with
  | .help => .error .help
  | .subset => if d.subset then .error .repeatedOption else .ok { d with subset := true }
  | .noColor => if d.noColor then .error .repeatedOption else .ok { d with noColor := true }
  | .list => if d.list then .error .repeatedOption else .ok { d with list := true }

/-- A value for the pending option, if that takes another one. -/
def value (d : Draft) (text : String) : Except UsageError Draft :=
  match d.pending with
  | some (.input, values) => .ok { d with pending := some (.input, values ++ [text]) }
  | some (option, []) => .ok { d with pending := some (option, [text]) }
  | _ => .error .unknownArgument

/-- An option in its long form, with the value behind an equals sign if there is one. -/
def long (d : Draft) (name : String) (attached : Option String) : Except UsageError Draft :=
  match ValueOption.ofText? name, Switch.ofText? name, attached with
  | some option, _, some value => d.attach option value
  | some option, _, none => d.begin option
  | none, some switch, none => d.turnOn switch
  | none, some _, some _ => .error .unneededValue
  | none, none, _ => .error .unknownArgument

/-- An option in its short form, with the characters behind it. -/
def short (d : Draft) (name : Char) (behind : List Char) : Except UsageError Draft :=
  match name, behind with
  | 'h', _ => d.turnOn .help
  | 'i', [] => d.begin .input
  | 'i', '=' :: value => d.attach .input (String.ofList value)
  | 'i', value => d.attach .input (String.ofList value)
  | _, _ => .error .unknownArgument

/-- Reads one argument. A single hyphen is a value. -/
def read (d : Draft) (argument : String) : Except UsageError Draft :=
  match argument.toList with
  | '-' :: '-' :: name =>
    d.long (String.ofList (name.takeWhile (· != '=')))
      (match name.dropWhile (· != '=') with
        | _ :: value => some (String.ofList value)
        | [] => none)
  | '-' :: name :: behind => d.short name behind
  | _ => d.value argument

/-- Reads arguments; two hyphens end the options, and nothing may follow them. -/
def readAll (d : Draft) : List String → Except UsageError Draft
  | [] => d.settle
  | "--" :: rest => if rest.isEmpty then d.settle else .error .unknownArgument
  | argument :: rest => do
    let d ← d.read argument
    d.readAll rest

/-- The arguments of a draft: without inputs there is only the list. -/
def finish (d : Draft) : Except UsageError Arguments :=
  if d.inputs.isEmpty && !d.list then .error .missingInput
  else .ok ⟨d.inputs, d.filter, d.subset, d.maxDepth, !d.noColor, d.list⟩

end Draft

/-- The arguments that a command line gives. -/
def ofList (arguments : List String) : Except UsageError Arguments := do
  let d ← Draft.readAll {} arguments
  d.finish

end Arguments

end Conformance
