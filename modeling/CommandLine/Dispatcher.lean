import CommandLine.Coordinator
import CommandLine.Focus
import CommandLine.Settings

/-! # Dispatchers

    A dispatcher takes lines from senders. Preprocessors look at a line before it is routed or
    completed and may change the context or stop the line; postprocessors look at the command that a
    line leads to before it is handed to the coordinator, which has its handler run on the context
    that the postprocessors leave. -/

namespace CommandLine

/-- Looks at a line before it is routed; an error stops the line. -/
abbrev Preprocessor := Context → Line → Except String Context

/-- Looks at a command before it is run; an error stops it. -/
abbrev Postprocessor := Command → Context → Except String Context

/-- Takes lines from senders. -/
structure Dispatcher where
  tree : Tree
  settings : Settings := {}
  checker : Checker := .all
  coordinator : Coordinator := .simple
  preprocessors : List Preprocessor := []
  postprocessors : List Postprocessor := []

namespace Dispatcher

/-- The dispatcher without commands, which runs handlers on the task of the caller. -/
def ofSettings (settings : Settings) (checker : Checker) : Dispatcher :=
  { settings, checker
    tree :=
      { rules :=
          { ignoreCase := settings.ignoreCase, replaceCommands := settings.replaceCommands }
        ignoreLock := settings.ignoreLock } }

/-- The dispatcher with another coordinator. -/
def withCoordinator (d : Dispatcher) (c : Coordinator) : Dispatcher :=
  { d with coordinator := c }

/-- The dispatcher with a preprocessor after the others. -/
def addPreprocessor (d : Dispatcher) (f : Preprocessor) : Dispatcher :=
  { d with preprocessors := d.preprocessors ++ [f] }

/-- The dispatcher with a postprocessor after the others. -/
def addPostprocessor (d : Dispatcher) (f : Postprocessor) : Dispatcher :=
  { d with postprocessors := d.postprocessors ++ [f] }

/-- The context of a line before anything is known about it. -/
def context (d : Dispatcher) (sender : Sender) (suggesting : Bool) : Context :=
  { sender, suggesting, checker := some d.checker }

/-- Runs the preprocessors in order, up to the first that stops the line. -/
def preprocess (d : Dispatcher) (ctx : Context) (text : String) : Except String Context :=
  d.preprocessors.foldlM (fun ctx f => f ctx (.ofString text)) ctx

/-- Runs the postprocessors in order, up to the first that stops the command. -/
def postprocess (d : Dispatcher) (c : Command) (ctx : Context) : Except String Context :=
  d.postprocessors.foldlM (fun ctx f => f c ctx) ctx

/-- The command that a line of a sender leads to. -/
def parse (d : Dispatcher) (sender : Sender) (text : String) : Except Failure Resolved :=
  match d.preprocess (d.context sender false) text with
  | .error reason => .error (.interrupted reason)
  | .ok ctx => d.tree.route ctx text

/-- How many suggestions a dispatcher gives. -/
def limits (d : Dispatcher) : Limits :=
  { most := d.settings.maxSuggestions, force := d.settings.forceSuggestion }

/-- The completion of the token that the cursor touches in a line of a sender. A line that is
    stopped has no suggestions. -/
def complete (d : Dispatcher) (sender : Sender) (text : String) (cursor : Nat) :
    Recall Completion :=
  match d.preprocess (d.context sender true) text with
  | .ok ctx => d.tree.complete d.limits ctx text cursor
  | .error _ =>
    let bounds := (Line.ofString text).tokenBounds cursor
    return { input := text, start := bounds.start, stop := bounds.stop, list := [] }

/-- The completion, unless the request for it was cancelled before. -/
def completeUnless (d : Dispatcher) (cancelled : Bool) (sender : Sender) (text : String)
    (cursor : Nat) : Recall (Option Completion) :=
  if cancelled then return none else return some (← d.complete sender text cursor)

/-- The response to a line of a sender that is completed at its end. -/
def respond (d : Dispatcher) (sender : Sender) (text : String) : Recall Completion.Response :=
  return (← d.complete sender text (Text.byteLength text.toList)).respond

/-- Runs the command that a line of a sender leads to. -/
def execute (d : Dispatcher) (sender : Sender) (text : String) : Run :=
  match d.parse sender text with
  | .error failure => .refused failure
  | .ok found =>
    match d.postprocess found.entry.command found.context with
    | .error reason => .withheld reason
    | .ok ctx => (d.coordinator ⟨found.entry, ctx⟩).run

end Dispatcher

end CommandLine
