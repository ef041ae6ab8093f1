import EffectLoop.Order.Run
import EffectLoop.Scheduler.Config
import EffectLoop.Text.SettingsFile

/-!
# The command line

What a run of the checkout prints and how it exits. Settings come from the environment and a settings
file. Records of level INFO and up are printed, one per line; a setting that is unfit ends the run.
-/

namespace EffectLoop.Cli

/-- What a run leaves: its exit code and the lines it wrote. -/
structure Report where
  exit : Nat
  out : List String
  err : List String
deriving DecidableEq

/-- How a part of the program is named in its log lines. -/
def sourceText : Source → String
  | .scheduler => "yield_effect::scheduler"
  | .registry => "yield_effect::registry"
  | .host => "yield_effect::host"
  | .order => "yield_effect_demo::order"

/-- A field of a log line. -/
def fieldText (f : LogField) : String :=
  f.key ++ "=" ++ if f.quoted then Json.outlineQuote f.text else f.text

/-- A span of a log line. -/
def spanText (s : Span) : String :=
  "task\x7bscheduler=" ++ s.scheduler ++ " task=" ++ s.id.text ++ " task_name="
    ++ Json.outlineQuote s.name ++ "\x7d:"

/-- Spans of a log line, outermost first, with a blank after them. -/
def spansText (spans : List Span) : String :=
  if spans.isEmpty then "" else String.join (spans.map spanText) ++ " "

/-- A log line. -/
def recordText (r : LogRecord) : String :=
  r.level.text ++ " " ++ spansText r.spans ++ sourceText r.source ++ ": " ++ r.message
    ++ String.join (r.fields.map fun f => " " ++ fieldText f)

/-- Whether a record is printed. -/
def isPrinted (r : LogRecord) : Bool := r.level != .debug

/-- The lines that tell of settings. -/
def settingLines (source : String) (lines : List String) : List String :=
  lines.map fun line => "INFO " ++ source ++ ": " ++ line

/-- The lines that tell of an error and its causes. -/
def errorLines (message : String) (causes : List String) : List String :=
  ("Error: " ++ message) ::
    if causes.isEmpty then [] else ["", "Caused by:"] ++ causes.map ("    " ++ ·)

/-- More steps than a checkout takes; the clock jumps, so the latency does not count. -/
def orderSteps : Nat := 1000000

/-- Run a checkout with these settings. -/
def runOrder (config : Order.Config) (scheduler : SchedulerConfig) : List String :=
  let (records, outcome) := Order.run config scheduler orderSteps
  (records.filter isPrinted).map recordText ++
    match outcome with
    | some (.error e) => ["ERROR order_demo: Order failed error=" ++ e.message]
    | _ => []

/-- The lines of some texts that are written each with a line feed after it: a text may hold line
feeds of its own. -/
def writtenLines (texts : List String) : List String :=
  texts.flatMap fun text =>
    (Text.physicalLines (text.toList ++ ['\n'])).map fun line => String.ofList (Text.dropLineEnd line)

/-- The report of a run that wrote these texts. -/
def Report.ofTexts (exit : Nat) (out err : List String) : Report :=
  ⟨exit, writtenLines out, writtenLines err⟩

/-- A run of the program in an environment, with the text of a settings file if there is one. -/
def run (env : Assoc String String) (file : Option String) : Report :=
  let settings := file.elim env (Text.loadSettings env)
  match Order.Config.ofLookup settings.find? with
  | .error e => .ofTexts 1 [] (errorLines e.message [e.cause.message])
  | .ok config =>
    let out := settingLines "yield_effect_demo::config" config.lines
    match SchedulerConfig.ofLookup settings.find? with
    | .error e => .ofTexts 1 out (errorLines e.message [])
    | .ok scheduler =>
      .ofTexts 0 (out ++ settingLines "yield_effect::config" scheduler.lines
        ++ runOrder config scheduler) []

/-- The names of the settings that count. -/
def settingNames : List String :=
  [Order.Config.productKey, Order.Config.userKey, Order.Config.happyPathKey,
   Order.Config.latencyKey, SchedulerConfig.nameKey, SchedulerConfig.limitKey]

/-- The words in a text that can be names of settings. -/
def words (text : String) : List String :=
  (text.split fun c => !(c.isAlphanum || c == '_')).toList.map fun w => w.toString

end EffectLoop.Cli
