import EffectLoop.Cli.Report

/-!
# The program

Reads the environment and the settings file, runs the checkout, and prints its report.
-/

open EffectLoop

/-- Run the checkout. -/
def main : IO UInt32 := do
  let file ← try some <$> IO.FS.readFile ".env" catch _ => pure none
  let names := (Cli.settingNames ++ Cli.words (file.getD "")).eraseDups
  let env ← names.filterMapM fun name => do
    let value ← IO.getEnv name
    pure (value.map fun value => (name, value))
  let report := Cli.run env file
  report.out.forM fun line => IO.println line
  report.err.forM fun line => IO.eprintln line
  pure report.exit.toUInt32
