import CommandLine.Proofs.Tree.Orderly

/-! # The order of creation

    The literals below a node stand in the order in which they were created. When a literal was
    created is not kept in the tree; it is read off the history: the age of a literal is the number
    of states, back from the last, in which its node has had it without a break.

    An edit either lets literals of a node fall out or puts one that is new at the end
    (`Node.Evolves`), so that the ages along the literals of a node go down (`inCreationOrder`). -/

namespace CommandLine

/-- A turn on the way down from a node. -/
inductive Turn where
  /-- To the literal of a name. -/
  | literal (name : String)
  /-- To the argument. -/
  | argument
deriving DecidableEq

namespace Node

/-- The names of the literals below a node. -/
def names (n : Node) : List String :=
  n.literals.map (·.1.name)

/-- The node after a turn; it is the node without commands where there is no such edge. -/
def enter (n : Node) : Turn → Node
  | .literal name => ((n.literals.find? (·.1.name == name)).map (·.2)).getD .empty
  | .argument => (n.argument.map (·.2)).getD .empty

/-- The node after some turns. -/
def follow (n : Node) (path : List Turn) : Node :=
  path.foldl enter n

/-- How an edit changes a list of names: some fall out, or a new one comes at the end. -/
def Shifts (old new : List String) : Prop :=
  new.Sublist old ∨ ∃ name, name ∉ old ∧ new = old ++ [name]

/-- The names at all places shift. -/
def Evolves (n n' : Node) : Prop :=
  ∀ path, Shifts (n.follow path).names (n'.follow path).names

theorem Evolves.refl (n : Node) : n.Evolves n :=
  fun _ => Or.inl (List.Sublist.refl _)

/-- Names shift everywhere when they do at a node and below each of its edges. -/
theorem Evolves.intro {n n' : Node} (here : Shifts n.names n'.names)
    (turns : ∀ turn, (n.enter turn).Evolves (n'.enter turn)) : n.Evolves n' := by
  intro path
  cases path with
  | nil => exact here
  | cons turn path => exact turns turn path

theorem follow_empty (path : List Turn) : empty.follow path = empty := by
  induction path with
  | nil => rfl
  | cons turn path ih => cases turn <;> exact ih

/-- Everything may be cut off. -/
theorem evolves_empty (n : Node) : n.Evolves empty := by
  intro path
  rw [follow_empty]
  exact Or.inl (List.nil_sublist _)

/-- Where no literal changes, only what is below the argument can. -/
theorem Evolves.of_argument {n n' : Node} (hliterals : n'.literals = n.literals)
    (hargument : (n.enter .argument).Evolves (n'.enter .argument)) : n.Evolves n' := by
  have hnames : n'.names = n.names := by rw [names, names, hliterals]
  refine .intro (Or.inl ?_) ?_
  · rw [hnames]
  · intro turn
    cases turn with
    | argument => exact hargument
    | literal name =>
        rw [enter, enter, hliterals]
        exact Evolves.refl _

/-- Where no child changes, no literal does. -/
theorem Evolves.of_children {n n' : Node} (hliterals : n'.literals = n.literals)
    (hargument : n'.argument = n.argument) : n.Evolves n' := by
  refine .of_argument hliterals ?_
  rw [enter, enter, hargument]
  exact Evolves.refl _

/-- A turn leads where it led, or below the literal that took the place of one of its name. -/
theorem enter_replace {n : Node} {before after : List (Literal × Node)} {old new : Literal}
    {child : Node} (hn : n.literals = before ++ (old, child) :: after) (hname : new.name = old.name)
    (child' : Node) (name : String) :
    enter { n with literals := before ++ (new, child') :: after } (.literal name) =
        n.enter (.literal name) ∨
      n.enter (.literal name) = child ∧
        enter { n with literals := before ++ (new, child') :: after } (.literal name) = child' := by
  simp only [enter, hn, List.find?_append, List.find?_cons, hname]
  cases before.find? (·.1.name == name) with
  | some edge => exact Or.inl rfl
  | none =>
      cases old.name == name with
      | true => exact Or.inr ⟨rfl, rfl⟩
      | false => exact Or.inl rfl

/-- A turn leads where it led, or below the literal that was put at the end. -/
theorem enter_append (n : Node) (l : Literal) (child : Node) (name : String) :
    enter { n with literals := n.literals ++ [(l, child)] } (.literal name) =
        n.enter (.literal name) ∨
      n.enter (.literal name) = empty ∧
        enter { n with literals := n.literals ++ [(l, child)] } (.literal name) = child := by
  simp only [enter, List.find?_append, List.find?_cons]
  cases n.literals.find? (·.1.name == name) with
  | some edge => exact Or.inl rfl
  | none =>
      cases l.name == name with
      | true => exact Or.inr ⟨rfl, rfl⟩
      | false => exact Or.inl rfl

/-- The names of an orderly node differ. -/
theorem Orderly.names_nodup {ignoreCase : Bool} {n : Node} (h : n.Orderly ignoreCase) :
    n.names.Nodup := by
  have hnames : n.names = (n.literals.map (·.1)).map (·.name) := by
    rw [List.map_map]
    rfl
  rw [hnames, List.Nodup, List.pairwise_map]
  refine h.apart.imp ?_
  intro x y hapart hname
  apply hapart (key_name_mem_keys ignoreCase x)
  rw [hname]
  exact key_name_mem_keys ignoreCase y

/-- Where names differ, every literal is found by its name. -/
theorem find_name_of_mem {n : Node} (hnodup : n.names.Nodup) {edge : Literal × Node}
    (hedge : edge ∈ n.literals) {name : String} (hname : edge.1.name = name) :
    n.literals.find? (·.1.name == name) = some edge := by
  cases hall : n.literals.find? (·.1.name == name) with
  | none => exact absurd (beq_iff_eq.mpr hname) (List.find?_eq_none.mp hall edge hedge)
  | some other =>
      have hother : other.1.name = name := by simpa using List.find?_some hall
      rw [List.inj_on_of_nodup_map hnodup (List.mem_of_find?_eq_some hall) hedge
        (hother.trans hname.symm)]

/-- Where names differ, a turn leads where it led, or its literal fell out. -/
theorem enter_sublist {n : Node} (hnodup : n.names.Nodup) {literals : List (Literal × Node)}
    (hsub : literals.Sublist n.literals) (name : String) :
    enter { n with literals } (.literal name) = n.enter (.literal name) ∨
      enter { n with literals } (.literal name) = empty := by
  simp only [enter]
  cases hleft : literals.find? (·.1.name == name) with
  | none => exact Or.inr rfl
  | some edge =>
      have hname : edge.1.name = name := by simpa using List.find?_some hleft
      rw [find_name_of_mem hnodup (hsub.subset (List.mem_of_find?_eq_some hleft)) hname]
      exact Or.inl rfl

/-- Where names differ, some of the literals lead to the same nodes as all of them. -/
theorem evolves_sublist {n : Node} (hnodup : n.names.Nodup) {literals : List (Literal × Node)}
    (hsub : literals.Sublist n.literals) : n.Evolves { n with literals } := by
  refine .intro (Or.inl (hsub.map _)) ?_
  intro turn
  cases turn with
  | argument => exact Evolves.refl _
  | literal name =>
      rcases enter_sublist hnodup hsub name with hsame | hnone
      · rw [hsame]
        exact Evolves.refl _
      · rw [hnone]
        exact evolves_empty _

theorem Inserted.evolves {rules : Rules} {e : Entry} {components : List Component} {n n' : Node}
    (h : Inserted rules e components n n') : n.Evolves n' := by
  induction h with
  | here _ => exact .of_children rfl rfl
  | @newLiteral l rest n child _ vacant _ ih =>
      refine .intro (Or.inr ⟨l.name, ?_, by simp [names]⟩) ?_
      · -- an edge of the same name would have been shared
        intro hmem
        obtain ⟨edge, hedge, hname⟩ := List.mem_map.mp hmem
        have hshares : shares rules.ignoreCase l edge = true := shares_iff.mpr (by rw [hname])
        rw [vacant edge hedge] at hshares
        cases hshares
      · intro turn
        cases turn with
        | argument => exact Evolves.refl _
        | literal name =>
            rcases enter_append n l child name with hsame | ⟨hnone, hchild⟩
            · rw [hsame]
              exact Evolves.refl _
            · -- below a new literal everything is as below the node without commands
              rw [hnone, hchild]
              exact ih
  | @sharedLiteral l old _ n _ _ _ _ _ split _ _ _ ih =>
      have hname : (old.merge rules.ignoreCase l).name = old.name := rfl
      refine .intro (Or.inl ?_) ?_
      · simp only [names, split, List.map_append, List.map_cons]
        exact List.Sublist.refl _
      · intro turn
        cases turn with
        | argument => exact Evolves.refl _
        | literal name =>
            rcases enter_replace split hname _ name with hsame | ⟨hchild, hchild'⟩
            · rw [hsame]
              exact Evolves.refl _
            · rw [hchild, hchild']
              exact ih
  | newArgument vacant _ ih =>
      refine .of_argument rfl ?_
      simp only [enter, vacant]
      exact ih
  | sharedArgument taken _ _ ih =>
      refine .of_argument rfl ?_
      simp only [enter, taken]
      exact ih
  | newFlags _ => exact .of_children rfl rfl
  | sharedFlags _ _ _ => exact .of_children rfl rfl

theorem Removed.evolves {ignoreCase : Bool} {serial : Nat} {components : List Component}
    {n n' : Node} (h : Removed ignoreCase serial components n n')
    (hn : n.Everywhere (Orderly ignoreCase)) : n.Evolves n' := by
  induction h with
  | here _ => exact .of_children rfl rfl
  | @literal l old rest n child child' before after split _ _ ih =>
      have hchild := ih (hn.literal (show (old, child) ∈ n.literals by simp [split]))
      rcases keep_cases old child' with ⟨-, hkeep⟩ | ⟨-, hkeep⟩
      · apply evolves_sublist hn.here.names_nodup
        rw [hkeep, split, Option.toList_none, List.append_nil]
        exact (List.Sublist.refl before).append (List.sublist_cons_self _ after)
      · rw [hkeep, Option.toList_some, List.append_assoc, List.singleton_append]
        refine .intro (Or.inl ?_) ?_
        · simp only [names, split, List.map_append, List.map_cons]
          exact List.Sublist.refl _
        · intro turn
          cases turn with
          | argument => exact Evolves.refl _
          | literal name =>
              rcases enter_replace split rfl child' name with hsame | ⟨hold, hnew⟩
              · rw [hsame]
                exact Evolves.refl _
              · rw [hold, hnew]
                exact hchild
  | @argument a old rest n child child' taken _ _ ih =>
      have hchild := ih (hn.argument taken)
      refine .of_argument rfl ?_
      rcases keep_cases old child' with ⟨-, hkeep⟩ | ⟨-, hkeep⟩
      · simp only [enter, hkeep]
        exact evolves_empty _
      · simp only [enter, hkeep, taken]
        exact hchild
  | flags _ _ _ => exact .of_children rfl rfl

end Node

namespace Tree

/-- An edit lets literals fall out or puts one at the end. -/
theorem Reshaped.evolves {rules : Rules} {n n' : Node} (h : Reshaped rules n n')
    (hn : n.Everywhere (Node.Orderly rules.ignoreCase)) : n.Evolves n' := by
  cases h with
  | unchanged => exact Node.Evolves.refl _
  | inserted _ hinserted => exact hinserted.evolves
  | removed hremoved => exact hremoved.evolves hn
  | uprooted name => exact Node.evolves_sublist hn.here.names_nodup List.eraseP_sublist

/-- In how many of some states, from the first on, the node after some turns has a literal of a
    name. -/
def age (states : List Tree) (path : List Turn) (name : String) : Nat :=
  (states.takeWhile fun t => (t.root.follow path).names.contains name).length

theorem age_cons_of_mem {t : Tree} {path : List Turn} {name : String}
    (h : name ∈ (t.root.follow path).names) (past : List Tree) :
    age (t :: past) path name = age past path name + 1 := by
  have hhead : (t.root.follow path).names.contains name = true := List.contains_iff_mem.mpr h
  unfold age
  rw [List.takeWhile_cons, if_pos hhead, List.length_cons]

theorem age_cons_of_not_mem {t : Tree} {path : List Turn} {name : String}
    (h : name ∉ (t.root.follow path).names) (past : List Tree) :
    age (t :: past) path name = 0 := by
  have hhead : ¬ (t.root.follow path).names.contains name = true :=
    fun hmem => h (List.contains_iff_mem.mp hmem)
  rw [age, List.takeWhile_cons, if_neg hhead, List.length_nil]

/-- The literals at every place stand in the order of creation: those before others are older. -/
theorem History.inCreationOrder {t : Tree} {past : List Tree} (h : History t past)
    (path : List Turn) :
    (t.root.follow path).names.Pairwise fun older newer =>
      age (t :: past) path newer < age (t :: past) path older := by
  induction h with
  | fresh bare =>
      rw [bare, Node.follow_empty]
      exact List.Pairwise.nil
  | @edit t past before edit ih =>
      obtain ⟨-, hreshaped⟩ := apply_reshaped t edit
      have horderly := Reachable.orderly ⟨past, before⟩
      -- the names that are still there have all grown older by one
      have hgrown : ∀ names : List String, names.Sublist (t.root.follow path).names →
          (∀ name ∈ names, name ∈ ((t.apply edit).root.follow path).names) →
          names.Pairwise fun older newer =>
            age (t.apply edit :: t :: past) path newer <
              age (t.apply edit :: t :: past) path older := by
        intro names hsub hmem
        refine (ih.sublist hsub).imp_of_mem ?_
        intro x y hx hy hlt
        rw [age_cons_of_mem (hmem x hx), age_cons_of_mem (hmem y hy)]
        omega
      rcases hreshaped.evolves horderly path with hsub | ⟨name, hfresh, hnew⟩
      · exact hgrown _ hsub fun _ hname => hname
      · have hlast : name ∈ ((t.apply edit).root.follow path).names := by
          rw [hnew]
          exact List.mem_append_right _ (List.mem_singleton_self name)
        have hold : ∀ x ∈ (t.root.follow path).names,
            x ∈ ((t.apply edit).root.follow path).names := by
          intro x hx
          rw [hnew]
          exact List.mem_append_left _ hx
        rw [hnew, List.pairwise_append]
        refine ⟨hgrown _ (List.Sublist.refl _) hold, List.pairwise_singleton _ _, ?_⟩
        intro x hx y hy
        -- the new name has been there in one state, the others in more
        obtain rfl : y = name := List.mem_singleton.mp hy
        rw [age_cons_of_mem hlast, age_cons_of_not_mem hfresh, age_cons_of_mem (hold x hx),
          age_cons_of_mem hx]
        omega

end Tree

namespace Node

/-- No token selects two literals of an orderly node. -/
theorem Orderly.answered_once {ignoreCase : Bool} {n : Node} (h : n.Orderly ignoreCase)
    (token : String) : (n.literals.filter (·.1.answers ignoreCase token)).length ≤ 1 := by
  have hapart := (List.pairwise_map.mp h.apart).sublist
    (List.filter_sublist (p := fun edge => edge.1.answers ignoreCase token))
  have hanswers : ∀ edge ∈ n.literals.filter (·.1.answers ignoreCase token),
      Literal.key ignoreCase token ∈ edge.1.keys ignoreCase :=
    fun edge hedge => key_mem_keys_of_answers (List.mem_filter.mp hedge).2
  rcases hfound : n.literals.filter (·.1.answers ignoreCase token) with - | ⟨x, - | ⟨y, rest⟩⟩
  · simp [hfound]
  · simp [hfound]
  · -- the key of the token would belong to both
    rw [hfound] at hapart hanswers
    obtain ⟨hx, -⟩ := List.pairwise_cons.mp hapart
    exact absurd (hanswers y (by simp)) (hx y (by simp) (hanswers x (by simp)))

/-- A token that a literal of an orderly node answers to selects this literal. -/
theorem Orderly.findLiteral_of_answers {ignoreCase : Bool} {n : Node} (h : n.Orderly ignoreCase)
    {l : Literal} {child : Node} (hedge : (l, child) ∈ n.literals) {token : String}
    (hanswers : l.answers ignoreCase token = true) :
    n.findLiteral ignoreCase token = some (l, child) := by
  have honce := h.answered_once token
  have hmem : (l, child) ∈ n.literals.filter (·.1.answers ignoreCase token) :=
    List.mem_filter.mpr ⟨hedge, hanswers⟩
  have hfirst : n.findLiteral ignoreCase token =
      (n.literals.filter (·.1.answers ignoreCase token)).head? := List.head?_filter.symm
  rw [hfirst]
  rcases hfound : n.literals.filter (·.1.answers ignoreCase token) with - | ⟨x, - | ⟨y, rest⟩⟩
  · simp [hfound] at hmem
  · rw [hfound, List.mem_singleton] at hmem
    rw [hfound, hmem, List.head?_cons]
  · simp [hfound] at honce

end Node

end CommandLine
