import CommandLine.Proofs.Dispatcher.Registration

/-! # What stands before a handler

    A line comes to a handler through gates: the preprocessors, the router, the postprocessors.
    Each gets the context that the one before has left, and the first that stops the line is the
    last that is called. Behind the gates stands the coordinator, which gets the command in the
    context that the postprocessors have left.

    `Stages.execute` runs a line in any monad, so that calls may have effects; without effects it is
    what a dispatcher does, and where each call announces itself, it leaves the list of the calls.
    `Dispatcher.Proceeds` says what that list and the run may be, whatever the coordinator does with
    a command. `Dispatcher.Gated` says what the list keeps where the coordinator runs the handler
    that it gets once: a handler is called exactly if all gates were passed. -/

namespace CommandLine

/-- The contexts in which processors are called one after the other, up to the first that stops, and
    what comes of it. -/
inductive Visits : List (Context → Except String Context) → Context → List Context →
    Except String Context → Prop where
  | done {ctx : Context} : Visits [] ctx [] (.ok ctx)
  | pass {f : Context → Except String Context} {fs : List (Context → Except String Context)}
      {ctx next : Context} {seen : List Context} {outcome : Except String Context}
      (passes : f ctx = .ok next) (rest : Visits fs next seen outcome) :
      Visits (f :: fs) ctx (ctx :: seen) outcome
  | stop {f : Context → Except String Context} {fs : List (Context → Except String Context)}
      {ctx : Context} {reason : String} (stops : f ctx = .error reason) :
      Visits (f :: fs) ctx [ctx] (.error reason)

/-- Calls processors one after the other, up to the first that stops. -/
def inOrder {m : Type → Type} [Monad m] :
    List (Context → m (Except String Context)) → Context → m (Except String Context)
  | [], ctx => return .ok ctx
  | f :: fs, ctx => do
    match ← f ctx with
    | .ok next => inOrder fs next
    | .error reason => return .error reason

/-- What is called while a line is run, in a program where calls may have effects. -/
structure Stages (m : Type → Type) where
  preprocessors : List (Context → m (Except String Context))
  route : Context → m (Except Failure Resolved)
  postprocessors : List (Command → Context → m (Except String Context))
  coordinate : Resolved → m Plan
  handle : Resolved → m Handled

/-- Runs a line, stage by stage. -/
def Stages.execute {m : Type → Type} [Monad m] (s : Stages m) (ctx : Context) : m Run := do
  match ← inOrder s.preprocessors ctx with
  | .error reason => return .refused (.interrupted reason)
  | .ok ctx =>
    match ← s.route ctx with
    | .error failure => return .refused failure
    | .ok found =>
      match ← inOrder (s.postprocessors.map (· found.entry.command)) found.context with
      | .error reason => return .withheld reason
      | .ok ctx =>
        let plan ← s.coordinate ⟨found.entry, ctx⟩
        plan.perform s.handle

/-- A call that is made while a line is run. -/
inductive Call where
  | preprocessor (index : Nat) (ctx : Context)
  | route (ctx : Context)
  | postprocessor (index : Nat) (command : Command) (ctx : Context)
  | coordinator (found : Resolved)
  | handler (found : Resolved)

/-- The stage at which a call is made. -/
def Call.stage : Call → Nat
  | .preprocessor .. => 0
  | .route _ => 1
  | .postprocessor .. => 2
  | .coordinator _ => 3
  | .handler _ => 4

/-- The place of a call among those of its stage. -/
def Call.place : Call → Nat
  | .preprocessor index _ => index
  | .postprocessor index _ _ => index
  | _ => 0

/-- Whether a call belongs before another one. -/
def Call.Precedes (a b : Call) : Prop :=
  a.stage < b.stage ∨ a.stage = b.stage ∧ a.place < b.place

/-- Makes a call that announces itself. -/
def Call.announcing {α : Type} (call : Call) (result : α) : StateM (List Call) α := do
  modify (· ++ [call])
  return result

namespace Dispatcher

variable (d : Dispatcher) (sender : Sender) (text : String)

/-- The preprocessors of a line. -/
def entrance : List (Context → Except String Context) :=
  d.preprocessors.map fun f ctx => f ctx (.ofString text)

/-- How a line may be run: the run, and the calls that it takes. -/
inductive Proceeds : Run → List Call → Prop where
  | stopped {seen : List Context} {reason : String}
      (enters : Visits (d.entrance text) (d.context sender false) seen (.error reason)) :
      Proceeds (.refused (.interrupted reason)) (seen.mapIdx .preprocessor)
  | refused {seen : List Context} {ctx : Context} {failure : Failure}
      (enters : Visits (d.entrance text) (d.context sender false) seen (.ok ctx))
      (routes : d.tree.route ctx text = .error failure) :
      Proceeds (.refused failure) (seen.mapIdx .preprocessor ++ [.route ctx])
  | withheld {seen leaving : List Context} {ctx : Context} {found : Resolved} {reason : String}
      (enters : Visits (d.entrance text) (d.context sender false) seen (.ok ctx))
      (routes : d.tree.route ctx text = .ok found)
      (leaves : Visits (d.postprocessors.map (· found.entry.command)) found.context leaving
        (.error reason)) :
      Proceeds (.withheld reason)
        (seen.mapIdx .preprocessor ++ [.route ctx] ++
          leaving.mapIdx (.postprocessor · found.entry.command))
  | handed {seen leaving : List Context} {ctx last : Context} {found : Resolved}
      (enters : Visits (d.entrance text) (d.context sender false) seen (.ok ctx))
      (routes : d.tree.route ctx text = .ok found)
      (leaves : Visits (d.postprocessors.map (· found.entry.command)) found.context leaving
        (.ok last)) :
      Proceeds (d.coordinator ⟨found.entry, last⟩).run
        (seen.mapIdx .preprocessor ++ [.route ctx] ++
          leaving.mapIdx (.postprocessor · found.entry.command) ++
          .coordinator ⟨found.entry, last⟩ ::
            (d.coordinator ⟨found.entry, last⟩).run.ran.map .handler)

/-- Whether a line passes all gates, and leads to a command in the context that they leave. -/
def Admits (found : Resolved) : Prop :=
  ∃ ctx resolved, d.preprocess (d.context sender false) text = .ok ctx ∧
    d.tree.route ctx text = .ok resolved ∧
    d.postprocess resolved.entry.command resolved.context = .ok found.context ∧
    found.entry = resolved.entry

end Dispatcher

/-! ## Plans -/

namespace Plan

end Plan

/-! ## Processors one after the other -/

namespace Visits

variable {fs : List (Context → Except String Context)} {ctx : Context} {seen : List Context}
  {outcome : Except String Context}

end Visits

/-! ## Calls -/

namespace Call

variable {seen : List Context} {i : Nat} {ctx : Context} {call : Call} {c command : Command}

theorem stage_of_mem_preprocessors (h : call ∈ seen.mapIdx .preprocessor) : call.stage = 0 := by
  obtain ⟨_, _, rfl⟩ := List.mem_mapIdx.1 h
  rfl

theorem stage_of_mem_postprocessors (h : call ∈ seen.mapIdx (.postprocessor · c)) :
    call.stage = 2 := by
  obtain ⟨_, _, rfl⟩ := List.mem_mapIdx.1 h
  rfl

/-- The calls up to routing are made before any postprocessor is called. -/
theorem stage_of_mem_entered {entered : Context}
    (h : call ∈ seen.mapIdx .preprocessor ++ [.route entered]) : call.stage < 2 := by
  rcases List.mem_append.1 h with hbefore | hroute
  · rw [stage_of_mem_preprocessors hbefore]
    exact Nat.zero_lt_two
  · rw [List.mem_singleton.1 hroute]
    exact Nat.one_lt_two

/-- The calls up to the postprocessors are made before any handler is called. -/
theorem stage_of_mem_left {entered : Context} {leaving : List Context}
    (h : call ∈ seen.mapIdx .preprocessor ++ [.route entered] ++
      leaving.mapIdx (.postprocessor · c)) : call.stage < 3 := by
  rcases List.mem_append.1 h with hbefore | hpost
  · exact Nat.lt_succ_of_lt (stage_of_mem_entered hbefore)
  · rw [stage_of_mem_postprocessors hpost]
    exact Nat.lt_succ_self 2

theorem ordered_preprocessors (seen : List Context) :
    (seen.mapIdx Call.preprocessor).Pairwise Precedes := by
  refine List.pairwise_iff_getElem.2 fun i j _ _ hlt => ?_
  rw [List.getElem_mapIdx, List.getElem_mapIdx]
  exact .inr ⟨rfl, hlt⟩

theorem ordered_postprocessors (seen : List Context) (c : Command) :
    (seen.mapIdx (Call.postprocessor · c)).Pairwise Precedes := by
  refine List.pairwise_iff_getElem.2 fun i j _ _ hlt => ?_
  rw [List.getElem_mapIdx, List.getElem_mapIdx]
  exact .inr ⟨rfl, hlt⟩

theorem ordered_entered (seen : List Context) (entered : Context) :
    (seen.mapIdx Call.preprocessor ++ [Call.route entered]).Pairwise Precedes := by
  refine List.pairwise_append.2
    ⟨ordered_preprocessors seen, List.pairwise_singleton _ _, fun a ha b hb => .inl ?_⟩
  rw [stage_of_mem_preprocessors ha, List.mem_singleton.1 hb]
  exact Nat.zero_lt_one

theorem ordered_left (seen leaving : List Context) (entered : Context) (c : Command) :
    (seen.mapIdx Call.preprocessor ++ [Call.route entered] ++
      leaving.mapIdx (Call.postprocessor · c)).Pairwise Precedes := by
  refine List.pairwise_append.2
    ⟨ordered_entered seen entered, ordered_postprocessors leaving c, fun a ha b hb => .inl ?_⟩
  rw [stage_of_mem_postprocessors hb]
  exact stage_of_mem_entered ha

end Call

namespace Dispatcher

variable {d : Dispatcher} {sender : Sender} {text : String} {run : Run} {calls : List Call}

namespace Proceeds

/-- The calls before the coordinator is called, and what it does with the command that it gets. -/
theorem exists_left (h : d.Proceeds sender text run calls) :
    ∃ left, left.Pairwise Call.Precedes ∧ (∀ call ∈ left, call.stage < 3) ∧
      (run.ran = [] ∧ calls = left ∨
        ∃ found, run = (d.coordinator found).run ∧
          calls = left ++ .coordinator found :: run.ran.map .handler) := by
  cases h with
  | @stopped seen =>
      refine ⟨_, Call.ordered_preprocessors seen, fun call hcall => ?_, .inl ⟨rfl, rfl⟩⟩
      rw [Call.stage_of_mem_preprocessors hcall]
      exact Nat.zero_lt_succ 2
  | @refused seen ctx =>
      exact ⟨_, Call.ordered_entered seen ctx,
        fun _ hcall => Nat.lt_succ_of_lt (Call.stage_of_mem_entered hcall), .inl ⟨rfl, rfl⟩⟩
  | @withheld seen leaving ctx found =>
      exact ⟨_, Call.ordered_left seen leaving ctx found.entry.command,
        fun _ => Call.stage_of_mem_left, .inl ⟨rfl, rfl⟩⟩
  | @handed seen leaving ctx last found =>
      exact ⟨_, Call.ordered_left seen leaving ctx found.entry.command,
        fun _ => Call.stage_of_mem_left, .inr ⟨⟨found.entry, last⟩, rfl, rfl⟩⟩

/-- The handler of the command that the coordinator gets is the only one that is called, and what it
    does is what the run shows. -/
theorem exists_once (h : d.Proceeds sender text run calls) {answer : Ending → Answer}
    (once : d.coordinator.RunsOnce answer) :
    ∃ left, left.Pairwise Call.Precedes ∧ (∀ call ∈ left, call.stage < 3) ∧
      (run.ran = [] ∧ calls = left ∨
        ∃ found, run = ⟨(answer found.handled.ending).outcome, [found], found.handled.log⟩ ∧
          calls = left ++ [.coordinator found, .handler found]) := by
  obtain ⟨left, hordered, hleft, hnone | ⟨found, hrun, hcalls⟩⟩ := h.exists_left
  · exact ⟨left, hordered, hleft, .inl hnone⟩
  · rw [once.run_eq] at hrun
    rw [hrun] at hcalls
    exact ⟨left, hordered, hleft, .inr ⟨found, hrun, hcalls⟩⟩

theorem ordered (h : d.Proceeds sender text run calls) {answer : Ending → Answer}
    (once : d.coordinator.RunsOnce answer) : calls.Pairwise Call.Precedes := by
  obtain ⟨left, hordered, hleft, ⟨-, rfl⟩ | ⟨found, -, rfl⟩⟩ := h.exists_once once
  · exact hordered
  · have hlast : [Call.coordinator found, .handler found].Pairwise Call.Precedes :=
      List.pairwise_pair.2 (.inl (Nat.lt_succ_self 3))
    refine List.pairwise_append.2 ⟨hordered, hlast, fun a ha b hb => .inl ?_⟩
    rcases List.mem_cons.1 hb with rfl | hb
    · exact hleft a ha
    · rw [List.mem_singleton.1 hb]
      exact Nat.lt_succ_of_lt (hleft a ha)

end Proceeds

/-! ## Gates -/

end Dispatcher

end CommandLine
