import WaveHazard.Pass.Visitor

/-! # The registry of passes

Passes are registered under their names, and lists of passes under aliases. An alias is expanded
when it is added, so what it stands for is a list of passes. A plan is what a list of names stands
for, and it is run without the passes that are excluded.
-/

namespace WaveHazard

open Machine

/-- The passes and aliases that can be asked for by name. -/
structure Registry where
  passes : List (Pass Unit) := []
  aliases : List (String × List String) := []

/-- The passes to run in order, and those of them to leave out. -/
structure Plan where
  included : List String
  excluded : List String
deriving DecidableEq, Inhabited

namespace Registry

/-- The registry without passes. -/
def empty : Registry := {}

/-- The pass of the given name. -/
def pass? (registry : Registry) (name : String) : Option (Pass Unit) :=
  registry.passes.find? (·.name == name)

/-- Whether there is a pass of the given name. -/
def hasPass (registry : Registry) (name : String) : Bool := (registry.pass? name).isSome

/-- The passes an alias stands for. -/
def alias? (registry : Registry) (name : String) : Option (List String) :=
  registry.aliases.lookup name

/-- A diagnostic of the registry. -/
def problem (detail : String) : Diagnostic := { kind := .misc, detail }

/-- What the journal says about a pass that was registered. -/
def introduce (pass : Pass Unit) : List String :=
  s!"Registered {pass.name}: {pass.description}" :: pass.options.map fun option =>
    s!"  {pass.name}:{option.name}: {option.description} (default: {option.default.text})"

/-- A registry that is being put together, and the journal that is kept of it. -/
structure Draft where
  registry : Registry := {}
  journal : Journal := {}

/-- A call to a registry. What it has changed by the time it is refused stays changed. -/
abbrev Call := ExceptT Diagnostic (StateM Draft)

/-- Register a pass and say so in the journal. A name can be given to one pass only. -/
def register (pass : Pass Unit) : Call Unit := do
  if (← get).registry.hasPass pass.name then
    throw (problem s!"Pass with name '{pass.name}' is already registered.")
  modify fun draft => { draft with
    journal := (introduce pass).foldl (fun journal line => journal.log .debug fun _ => line)
      draft.journal }
  modify fun draft => { draft with
    registry := { draft.registry with passes := draft.registry.passes ++ [pass] } }

/-- The passes a name stands for where an alias is defined. -/
def expand (registry : Registry) (name : String) : Except Diagnostic (List String) :=
  match registry.alias? name with
  | some passes => .ok passes
  | none =>
      if registry.hasPass name then .ok [name]
      else .error (problem s!"No pass or alias named: {name}")

/-- Add an alias for the passes its members stand for by now. An alias can be added once only. -/
def addAlias (name : String) (members : List String) : Call Unit := do
  let registry := (← get).registry
  if (registry.alias? name).isSome then
    throw (problem s!"Alias with name '{name}'  already registered.")
  let passes ← MonadExcept.ofExcept (members.mapM registry.expand)
  modify fun draft => { draft with
    registry := { draft.registry with
      aliases := draft.registry.aliases ++ [(name, passes.flatten)] } }

/-- The passes a name stands for in a plan; what is no alias is taken for a pass. -/
def resolve (registry : Registry) (name : String) : List String :=
  (registry.alias? name).getD [name]

/-- The plan of the given names, if they all stand for passes. -/
def plan (registry : Registry) (included excluded : List String) : Except Diagnostic Plan := do
  let plan : Plan :=
    { included := included.flatMap registry.resolve,
      excluded := excluded.flatMap registry.resolve }
  (plan.included ++ plan.excluded).forM fun name =>
    if registry.hasPass name then .ok ()
    else .error (problem s!"Unknown pass or alias: {name}")
  return plan

/-- Run one pass and say so in the journal. -/
def runPass (target : Target) (options : List String) (pass : Pass Unit) : Walk Unit Unit := do
  pass.run target options
  let program := (← get).program
  Walk.log .trace fun _ => s!"after {pass.name}:\n{program.text}"
  Walk.log .info fun _ => s!"{pass.name}: done"

/-- Run the passes of the given names but those that are excluded. -/
def runNames (registry : Registry) (target : Target) (options excluded : List String) :
    List String → Walk Unit Unit
  | [] => pure ()
  | name :: rest => do
      if name ∈ excluded then Walk.log .info fun _ => s!"{name}: Ignored"
      else
        match registry.pass? name with
        | some pass => runPass target options pass
        | none => pure ()
      runNames registry target options excluded rest

/-- Make a plan of the given names and run it. -/
def execute (registry : Registry) (target : Target) (options included excluded : List String) :
    Walk Unit Unit := do
  let plan ← Walk.ofCheck (registry.plan included excluded)
  registry.runNames target options plan.excluded plan.included

end Registry

end WaveHazard
