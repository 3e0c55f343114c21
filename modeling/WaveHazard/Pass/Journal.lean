/-! # The journal

Passes and the registry keep a journal of what they do. A record is kept only if the journal is
verbose enough for its level; a text that would be dropped is never built.
-/

namespace WaveHazard

/-- The importance of a record, most important first. -/
inductive Level where
  | error
  | warn
  | info
  | debug
  | trace
deriving DecidableEq, Inhabited

namespace Level

/-- All levels, most important first. -/
def all : List Level := [.error, .warn, .info, .debug, .trace]

/-- The place of a level, most important first. -/
def rank : Level → Nat
  | error => 0
  | warn => 1
  | info => 2
  | debug => 3
  | trace => 4

/-- The name of the level. -/
def text : Level → String
  | error => "error"
  | warn => "warn"
  | info => "info"
  | debug => "debug"
  | trace => "trace"

/-- The level with the given name. -/
def ofText? (name : String) : Option Level := all.find? fun level => level.text == name

end Level

/-- A record of the journal. -/
structure Record where
  level : Level
  text : String
deriving DecidableEq, Inhabited

/-- The text of the record as it is shown. A time in milliseconds after a colon at the end is shown
as `done`, so that what is shown does not depend on how long anything took. -/
def Record.untimed (record : Record) : String :=
  match record.text.toList.reverse with
  | 's' :: 'm' :: rest =>
      match rest.span Char.isDigit with
      | (_ :: _, ' ' :: ':' :: name) => String.ofList name.reverse ++ ": done"
      | _ => record.text
  | _ => record.text

/-- The records so far, and the least important level that is kept; `none` keeps nothing. -/
structure Journal where
  verbosity : Option Level := none
  records : Array Record := #[]
deriving DecidableEq, Inhabited

namespace Journal

/-- Whether records of a level are kept. -/
def keeps (journal : Journal) (level : Level) : Bool :=
  match journal.verbosity with
  | none => false
  | some least => level.rank ≤ least.rank

/-- The journal with one more record, if it keeps records of that level. -/
def log (journal : Journal) (level : Level) (text : Unit → String) : Journal :=
  if journal.keeps level then
    { journal with records := journal.records.push { level, text := text () } }
  else journal

end Journal

end WaveHazard
