import SchemaStore.Demo

/-!
The command line.  It reads the settings from the environment, runs the demonstration on a
directory that lives as long as the process, and prints what the demonstration shows.
-/

open SchemaStore

/-- The moment at which a run without a calendar takes place. -/
def epoch : DateTime :=
  { date := { year := 1970, month := 1, day := 1 },
    time := { hour := 0, minute := 0, second := 0, micro := 0 }, offset := none }

/-- The variables that configure a store, as far as they are set. -/
def readEnvironment : IO Settings.Environment := do
  let names := [dataDirectoryVariable, Settings.memtableLimitVariable, Settings.indexSampleVariable,
    Settings.forcedVariable]
  let found ← names.mapM fun name => do
    let value ← IO.getEnv name
    pure (value.map fun text => (name, text))
  pure (found.filterMap id)

def main : IO UInt32 := do
  let env ← readEnvironment
  let now ← IO.monoMsNow
  let outcome := Demo.run env epoch (Session.start now)
  IO.print outcome.output
  match outcome.failure with
  | none => pure 0
  | some failure => do
    IO.eprintln failure.message
    pure 1
