/-! # Diagnostics

What a pass or the pass registry reports about its input: a kind, the detail, and an optional note
that is written on a line of its own after the message.
-/

namespace WaveHazard

/-- What a diagnostic is about. -/
inductive Diagnostic.Kind where
  /-- The program violates a structural invariant. -/
  | malformedProgram
  /-- The program does not satisfy an assumption made by a pass. -/
  | passAssumption
  /-- An option handed to a pass could not be used. -/
  | invalidOption
  /-- Output could not be written. -/
  | writeError
  /-- Anything else; the detail is the whole message. -/
  | misc
deriving DecidableEq, Inhabited

/-- The words in front of the detail. -/
def Diagnostic.Kind.heading : Diagnostic.Kind → String
  | malformedProgram => "Malformed Program: "
  | passAssumption => "Pass Assumption Violated: "
  | invalidOption => "Invalid Option: "
  | writeError => "Write Error: "
  | misc => ""

/-- A report about the input of a pass or of the registry. -/
structure Diagnostic where
  kind : Diagnostic.Kind
  detail : String
  note : Option String := none
deriving DecidableEq, Inhabited

namespace Diagnostic

/-- A malformed program. -/
def malformed (detail : String) : Diagnostic := { kind := .malformedProgram, detail }

/-- A failure of the device that output is written to. -/
def device (reason : String) : Diagnostic :=
  { kind := .writeError, detail := s!"IO Error: {reason}" }

/-- A failure to put a value into words. -/
def unprintable : Diagnostic :=
  { kind := .writeError,
    detail := "Format Error: an error occurred when formatting an argument" }

/-- The diagnostic with its note replaced. -/
def withNote (diagnostic : Diagnostic) (note : Option String) : Diagnostic :=
  { diagnostic with note }

/-- The message without the note. -/
def message (diagnostic : Diagnostic) : String :=
  diagnostic.kind.heading ++ diagnostic.detail

/-- The message followed by the note, if there is one. -/
def render (diagnostic : Diagnostic) : String :=
  match diagnostic.note with
  | none => diagnostic.message
  | some note => diagnostic.message ++ "\n" ++ note

end Diagnostic

end WaveHazard
