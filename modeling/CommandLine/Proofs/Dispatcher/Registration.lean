import CommandLine.Dispatcher
import CommandLine.Proofs.Tree.History

/-! # Dispatchers as they are made

    A dispatcher is made of settings and a checker. From then on processors are registered, the
    coordinator is chosen and commands are added and removed, in any order. `Dispatcher.Made` keeps
    the processors apart by their kind, in the order in which they were registered. -/

namespace CommandLine.Dispatcher

/-- A dispatcher as it is made, with the preprocessors and the postprocessors that have been
    registered, first to last. -/
inductive Made : List Preprocessor → List Postprocessor → Dispatcher → Prop where
  | fresh (settings : Settings) (checker : Checker) : Made [] [] (ofSettings settings checker)
  | coordinated {pre : List Preprocessor} {post : List Postprocessor} {d : Dispatcher}
      (before : Made pre post d) (c : Coordinator) : Made pre post (d.withCoordinator c)
  | preprocessor {pre : List Preprocessor} {post : List Postprocessor} {d : Dispatcher}
      (before : Made pre post d) (f : Preprocessor) : Made (pre ++ [f]) post (d.addPreprocessor f)
  | postprocessor {pre : List Preprocessor} {post : List Postprocessor} {d : Dispatcher}
      (before : Made pre post d) (f : Postprocessor) :
      Made pre (post ++ [f]) (d.addPostprocessor f)
  | edited {pre : List Preprocessor} {post : List Postprocessor} {d : Dispatcher}
      (before : Made pre post d) (edit : Tree.Edit) :
      Made pre post { d with tree := d.tree.apply edit }

variable {pre : List Preprocessor} {post : List Postprocessor} {d : Dispatcher}

/-- The tree of a dispatcher is one that edits lead to. -/
theorem Made.reachable (h : Made pre post d) : d.tree.Reachable := by
  induction h with
  | fresh settings checker => exact ⟨[], .fresh rfl⟩
  | coordinated _ _ ih => exact ih
  | preprocessor _ _ ih => exact ih
  | postprocessor _ _ ih => exact ih
  | edited _ edit ih =>
      obtain ⟨past, hpast⟩ := ih
      exact ⟨_, hpast.edit edit⟩

/-- A preprocessor is called behind those that were registered before, on the context that they
    leave. -/
theorem preprocess_addPreprocessor (d : Dispatcher) (f : Preprocessor) (ctx : Context)
    (text : String) :
    (d.addPreprocessor f).preprocess ctx text =
      d.preprocess ctx text >>= fun ctx => f ctx (.ofString text) := by
  rw [preprocess, addPreprocessor, List.foldlM_append, preprocess]
  congr 1
  funext left
  exact bind_pure _

/-- A postprocessor is called behind those that were registered before, on the context that they
    leave. -/
theorem postprocess_addPostprocessor (d : Dispatcher) (f : Postprocessor) (c : Command)
    (ctx : Context) :
    (d.addPostprocessor f).postprocess c ctx = d.postprocess c ctx >>= f c := by
  rw [postprocess, addPostprocessor, List.foldlM_append, postprocess]
  congr 1
  funext left
  exact bind_pure _

end CommandLine.Dispatcher
