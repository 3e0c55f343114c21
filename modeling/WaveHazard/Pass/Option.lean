import WaveHazard.Fault
import WaveHazard.Pass.Journal
import WaveHazard.Text.Number

/-! # Options of passes

Options come as texts of the form `pass:option` or `pass:option=value`. Each pass reads those that
name it: the last valid value of an option wins, and options that are not given have a default.
The bare form means "true", whatever values the option takes otherwise.
-/

namespace WaveHazard

/-- The value of an option. -/
inductive OptionValue where
  | flag (value : Bool)
  /-- A signed number of 64 bits. -/
  | number (value : Int)
deriving DecidableEq, Inhabited

namespace OptionValue

/-- The value in text. -/
def text : OptionValue → String
  | flag value => toString value
  | number value => toString value

/-- The value as a flag. -/
def asFlag : OptionValue → Except Fault Bool
  | flag value => .ok value
  | value => .error (.expectedFlag value.text)

/-- The value as a number. -/
def asNumber : OptionValue → Except Fault Int
  | number value => .ok value
  | value => .error (.expectedNumber value.text)

/-- The value as a number that is not negative. -/
def asNatural? (value : OptionValue) : Except Fault (Option Nat) :=
  value.asNumber.map fun n => if n < 0 then none else some n.toNat

/-- Read a flag. -/
def readFlag? (text : String) : Option OptionValue :=
  if text = "true" then some (.flag true)
  else if text = "false" then some (.flag false)
  else none

/-- Read a number. -/
def readNumber? (text : String) : Option OptionValue := (Text.signed64? text).map number

end OptionValue

/-- An option that can be given to a pass. -/
structure OptionSpec where
  name : String
  description : String
  default : OptionValue
deriving DecidableEq, Inhabited

/-- Read a value of the option, which is of the kind of its default. -/
def OptionSpec.read? (spec : OptionSpec) (text : String) : Option OptionValue :=
  match spec.default with
  | .flag _ => OptionValue.readFlag? text
  | .number _ => OptionValue.readNumber? text

/-- The values of options in the order in which they were last given. -/
abbrev OptionTable := List (String × OptionValue)

namespace OptionTable

/-- The value of an option. -/
def get? (table : OptionTable) (name : String) : Option OptionValue := table.lookup name

/-- The table with a value at its end, in the place of any earlier one of that option. -/
def put (table : OptionTable) (name : String) (value : OptionValue) : OptionTable :=
  table.filter (fun given => given.1 != name) ++ [(name, value)]

end OptionTable

/-- What one text says to a pass. -/
inductive OptionText where
  /-- The text is for another pass, or no option at all. -/
  | foreign
  /-- The pass has no such option. -/
  | unknown (name : String)
  /-- The option does not take the value. -/
  | invalid (name value : String)
  | given (name : String) (value : OptionValue)
deriving DecidableEq, Inhabited

namespace OptionText

/-- The parts before and after the first occurrence of a mark. -/
def cut? (mark : Char) (text : List Char) : Option (List Char × List Char) :=
  match text.dropWhile (· != mark) with
  | [] => none
  | _ :: rest => some (text.takeWhile (· != mark), rest)

/-- Read a text for the pass of the given name. The value ends at a further equals sign. -/
def read (pass : String) (specs : List OptionSpec) (text : String) : OptionText :=
  match cut? ':' text.toList with
  | none => .foreign
  | some (addressee, rest) =>
      if String.ofList addressee ≠ pass then .foreign
      else
        let name := String.ofList (rest.takeWhile (· != '='))
        match specs.find? (·.name == name) with
        | none => .unknown name
        | some spec =>
            match cut? '=' rest with
            | none => .given name (.flag true)
            | some (_, tail) =>
                let value := String.ofList (tail.takeWhile (· != '='))
                match spec.read? value with
                | some value => .given name value
                | none => .invalid name value

/-- What the user is told about a text that is ignored. -/
def warning? (pass : String) : OptionText → Option String
  | unknown name => some s!"Ignoring unknown option for pass `{pass}`: {name}"
  | invalid name value => some s!"Ignoring invalid value for option `{pass}:{name}`: {value}"
  | _ => none

end OptionText

namespace OptionTable

/-- The values that were given, in the order in which they were last given. -/
def ofTexts (texts : List OptionText) : OptionTable :=
  texts.foldl (fun table text => match text with
    | .given name value => table.put name value
    | _ => table) []

/-- The table with the defaults of all options that were not given. -/
def withDefaults (table : OptionTable) (specs : List OptionSpec) : OptionTable :=
  specs.foldl (fun table spec =>
    if (table.get? spec.name).isSome then table else table.put spec.name spec.default) table

/-- Read the options of a pass, keeping a journal of what is ignored and what is given. -/
def read (pass : String) (specs : List OptionSpec) (texts : List String) (journal : Journal) :
    OptionTable × Journal :=
  let readings := texts.map (OptionText.read pass specs)
  let journal := (readings.filterMap (OptionText.warning? pass)).foldl
    (fun journal warning => journal.log .warn fun _ => warning) journal
  let given := ofTexts readings
  let journal := journal.log .debug fun _ =>
    let values := given.map fun (name, value) => s!"{name}->{value.text}"
    s!"Extra options for {pass}: " ++ String.intercalate ", " values
  (given.withDefaults specs, journal)

end OptionTable

end WaveHazard
