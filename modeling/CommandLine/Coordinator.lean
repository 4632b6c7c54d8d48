import CommandLine.Route

/-! # Coordinators

    A coordinator decides where and when the handler of a command is run, and what the sender of the
    line is told. Its decisions are a `Plan`: to answer, or to run a handler first and go on by what
    came of it. `Plan.perform` runs the handlers of a plan in any monad, and `Plan.run` without
    effects.

    Two coordinators are given. `Coordinator.simple` runs the handler on the task of its caller, so
    that a handler that breaks off takes its caller with it; `Coordinator.task` runs it on a task of
    its own, and a handler that breaks off is a task that was lost. A host may have others. What is
    asked of them is `Coordinator.RunsOnce`. -/

namespace CommandLine

/-- What a coordinator answers. -/
inductive Answer where
  | completed
  /-- The handler failed. -/
  | failed (message : String)
  /-- The task of the handler ended without an answer. -/
  | lost (message : String)
  /-- There is no answer, since the handler broke off on the task of its caller. -/
  | brokeOff (message : String)
deriving DecidableEq, Repr

/-- What the caller of a dispatcher gets for a line. -/
inductive Outcome where
  | succeeded
  | failed (error : RunError)
  /-- The call breaks off with the handler. -/
  | brokeOff (message : String)
deriving DecidableEq, Repr

/-- What an answer is to the caller. -/
def Answer.outcome : Answer → Outcome
  | .completed => .succeeded
  | .failed message => .failed (.handler message)
  | .lost message => .failed (.task message)
  | .brokeOff message => .brokeOff message

/-- What running a line did. -/
structure Run where
  outcome : Outcome
  /-- The commands whose handlers were run, with the contexts they were run in, first to last. -/
  ran : List Resolved := []
  log : List LogEntry := []

/-- The run of a line that leads to no command. -/
def Run.refused (failure : Failure) : Run :=
  { outcome := .failed (.parse failure) }

/-- The run of a line whose command a postprocessor stops. -/
def Run.withheld (reason : String) : Run :=
  { outcome := .failed (.interrupted reason) }

/-- What a coordinator does. -/
inductive Plan where
  | answer (a : Answer)
  /-- Runs the handler of a command in a context. -/
  | handle (found : Resolved) (next : Handled → Plan)

/-- Carries a plan out in a program where handlers may have effects. -/
def Plan.perform {m : Type → Type} [Monad m] (handle : Resolved → m Handled) : Plan → m Run
  | .answer a => return { outcome := a.outcome }
  | .handle found next => do
    let handled ← handle found
    let run ← (next handled).perform handle
    return { run with ran := found :: run.ran, log := handled.log ++ run.log }

/-- What a handler makes of the context that a command was found with. -/
def Resolved.handled (r : Resolved) : Handled :=
  r.entry.command.handler r.context

/-- Carries a plan out. -/
def Plan.run (p : Plan) : Run :=
  Id.run (p.perform fun found => pure found.handled)

/-- Decides where and when the handler of a command is run. -/
abbrev Coordinator := Resolved → Plan

/-- The answer to a handler that was run on the task of the caller. -/
def Ending.onCaller : Ending → Answer
  | .completed => .completed
  | .failed message => .failed message
  | .brokeOff message => .brokeOff message

/-- The answer to a handler that was run on a task of its own. -/
def Ending.onTask : Ending → Answer
  | .completed => .completed
  | .failed message => .failed message
  | .brokeOff message => .lost message

namespace Coordinator

/-- Runs handlers on the task of the caller. -/
def simple : Coordinator := fun found =>
  .handle found fun handled => .answer handled.ending.onCaller

/-- Runs each handler on a task of its own and waits for it. -/
def task : Coordinator := fun found =>
  .handle found fun handled => .answer handled.ending.onTask

/-- What is expected of coordinators: the handler of the command is run once, in the context that
    was handed over, and answered by the way it ended. -/
def RunsOnce (c : Coordinator) (answer : Ending → Answer) : Prop :=
  ∀ found, c found = .handle found fun handled => .answer (answer handled.ending)

theorem RunsOnce.run_eq {c : Coordinator} {answer : Ending → Answer} (h : c.RunsOnce answer)
    (found : Resolved) :
    (c found).run = ⟨(answer found.handled.ending).outcome, [found], found.handled.log⟩ := by
  have hlog : (c found).run.log = found.handled.log := by
    rw [h found]
    exact List.append_nil _
  rw [← hlog, h found]
  rfl

theorem simple_runsOnce : simple.RunsOnce Ending.onCaller :=
  fun _ => rfl

end Coordinator

end CommandLine
