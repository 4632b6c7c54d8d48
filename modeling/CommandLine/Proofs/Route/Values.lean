import CommandLine.Proofs.Route.Safety

/-! # The values of arguments

    A pass reads the arguments of the tree, not those of the command that it ends with. The two have
    the same name, since arguments share an edge by name alone, but the edge keeps the argument that
    it was made with: its checks, its parser and its default. So the value under the name of an
    argument is the one that the argument of the edge gives, and it is the one that the argument of
    the command gives exactly where the two give the same (`Tree.route_value`).

    They need not: `Tree.route_value_replaced` is a command that replaced another one and still has
    its default. -/

namespace CommandLine

namespace Argument

/-- The default of an argument in a context, if it has one. -/
def defaultValue? (a : Argument) (ctx : Context) : Option Value :=
  match a.need.default? with
  | none => none
  | some (.constant value) => some value
  | some (.computed f) => some (f ctx)
  | some (.parsed text) => (a.parser.read ctx (.ofString text)).value?

/-- What an argument gives at the place of a move: the value that it reads there after its checks,
    or its default where it is left out. -/
def given? (a : Argument) (m : Move) : Option Value :=
  if m.leftOut then a.defaultValue? m.before else (a.read m.before m.line).value?

end Argument

theorem Context.value?_store (ctx : Context) (name other : String) (value : Value) :
    (ctx.store name value).value? other = if other = name then some value else ctx.value? other :=
  Store.get?_put ctx.values name other value

theorem Context.value?_store_self (ctx : Context) (name : String) (value : Value) :
    (ctx.store name value).value? name = some value := by
  rw [value?_store, if_pos rfl]

/-- An argument that is left out leaves its default under its name. -/
theorem Argument.value?_of_fill {a : Argument} {ctx filled : Context}
    (h : a.fill ctx = .ok filled) :
    filled.value? a.name = (a.defaultValue? ctx).or (ctx.value? a.name) := by
  cases hdefault : a.need.default? with
  | none =>
      simp only [fill, hdefault] at h
      cases h
      simp only [defaultValue?, hdefault, Option.none_or]
  | some default =>
      cases default with
      | constant value =>
          simp only [fill, hdefault] at h
          cases h
          simp only [defaultValue?, hdefault, Context.value?_store_self, Option.some_or]
      | computed f =>
          simp only [fill, hdefault] at h
          cases h
          simp only [defaultValue?, hdefault, Context.value?_store_self, Option.some_or]
      | parsed text =>
          simp only [fill, hdefault, Except.map] at h
          split at h
          · cases h
          · next value hvalue =>
              cases h
              simp only [defaultValue?, hdefault, Reading.value?, hvalue,
                Context.value?_store_self, Except.toOption, Option.some_or]

/-- The value under a key has not changed. -/
def SameValue (key : String) (before after : Context) : Prop :=
  after.value? key = before.value? key

theorem SameValue.chains (key : String) : Chains (SameValue key) :=
  ⟨fun _ => rfl, fun hab hbc => Eq.trans hbc hab⟩

/-- No value is stored under a key, and parsers of the surrounding program store none either. -/
def Allowed.leaving (key : String) : Allowed where
  host := fun h => h.read.Keeps (SameValue key)
  key := fun name => name ≠ key

theorem Allowed.leaving_keeps (key : String) : (Allowed.leaving key).Keeps (SameValue key) := by
  refine ⟨fun _ hhost => hhost, ?_, fun _ _ _ _ => rfl, fun _ _ _ => rfl⟩
  intro name hname ctx value
  rw [SameValue, Context.value?_store, if_neg (Ne.symm hname)]

/-- No two components of a path with keys of its own share a key. -/
theorem Component.keys_apart {path : List Component} (h : (keysAlong path).Nodup) {i j : Nat}
    {x y : Component} (hx : path[i]? = some x) (hy : path[j]? = some y) (hij : j ≠ i) :
    List.Disjoint x.storedKeys y.storedKeys := by
  have hapart := (List.nodup_flatMap.mp h).2
  rw [List.pairwise_iff_getElem] at hapart
  obtain ⟨hi, rfl⟩ := List.getElem?_eq_some_iff.mp hx
  obtain ⟨hj, rfl⟩ := List.getElem?_eq_some_iff.mp hy
  rcases Nat.lt_or_gt_of_ne hij with hlt | hlt
  · exact List.disjoint_symm (hapart j i hj hi hlt)
  · exact hapart i j hi hj hlt

/-- What corresponds to a component of a list. -/
theorem forall₂_getElem? {α β : Type} {R : α → β → Prop} {xs : List α} {ys : List β}
    (h : List.Forall₂ R xs ys) {i : Nat} {y : β} (hy : ys[i]? = some y) :
    ∃ x, xs[i]? = some x ∧ R x y := by
  induction h generalizing i with
  | nil => cases hy
  | cons hhead _ ih =>
      cases i with
      | zero =>
          cases hy
          exact ⟨_, rfl, hhead⟩
      | succ i => exact ih hy

/-- What takes the edge of a literal has no parser. -/
theorem Component.parsers_of_corresponds {ignoreCase : Bool} {c : Component} {l : Literal}
    (h : c.Corresponds ignoreCase (.literal l)) : c.parsers = [] := by
  cases c with
  | literal _ => rfl
  | argument _ => exact h.elim
  | flags _ => exact h.elim

/-- What takes the edge of an argument is an argument of its name. -/
theorem Component.argument_of_corresponds {ignoreCase : Bool} {c : Component} {a : Argument}
    (h : c.Corresponds ignoreCase (.argument a)) :
    ∃ shared, c = .argument shared ∧ shared.name = a.name := by
  cases c with
  | literal _ => exact h.elim
  | argument shared => exact ⟨shared, rfl, h⟩
  | flags _ => exact h.elim

namespace Position

variable {ignoreCase : Bool}

/-- A move along an argument leaves what the argument gives there under its name. -/
theorem Passes.value? {p q : Position} {m : Move} {a : Argument}
    (h : p.Passes ignoreCase m q) (ha : m.component = .argument a) :
    m.after.value? a.name = (a.given? m).or (m.before.value? a.name) := by
  cases h with
  | word _ _ => cases ha
  | @read shared child value _ _ reads =>
      cases ha
      show (((a.read p.context p.line).context.store a.name value).recordConsumed a.name _).value?
        a.name = _
      have hgiven : (a.read p.context p.line).value? = some value := by
        simp only [Reading.value?, reads, Except.toOption]
      simp only [Argument.given?, hgiven, Bool.false_eq_true, if_false, Option.some_or]
      exact Context.value?_store_self _ a.name value
  | skipped _ _ _ fills =>
      cases ha
      exact Argument.value?_of_fill fills

/-- A move of a walk along an argument passes it. -/
theorem Walk.passes {p : Position} {moves : List Move} {ending : List Entry} {r : Resolved}
    (h : p.Walk ignoreCase moves ending r) {m : Move} {a : Argument} (hm : m ∈ moves)
    (ha : m.component = .argument a) : ∃ before after, Passes ignoreCase before m after := by
  induction h with
  | descend _ passes _ ih =>
      rcases List.mem_cons.mp hm with rfl | hm
      · exact ⟨_, _, passes⟩
      · exact ih hm
  | arrive _ _ => cases hm
  | enter _ enters _ =>
      cases List.mem_singleton.mp hm
      cases enters <;> cases ha

/-- What all moves of a walk but one keep is kept up to that one and after it. -/
theorem Walk.chained_around {K : Context → Context → Prop} (hK : Chains K) {p : Position}
    {moves : List Move} {ending : List Entry} {r : Resolved} (h : p.Walk ignoreCase moves ending r)
    {i : Nat} {m : Move} (hm : moves[i]? = some m)
    (hothers : ∀ j m', moves[j]? = some m' → j ≠ i → K m'.before m'.after) :
    K p.context m.before ∧ K m.after r.context := by
  induction h generalizing i with
  | @descend p q first moves ending r _ passes rest ih =>
      have hbefore : first.before = p.context := by cases passes <;> rfl
      have hafter : first.after = q.context := by cases passes <;> rfl
      cases i with
      | zero =>
          -- this is the move, and the others come after it
          cases hm
          have hrest : ∀ m' ∈ moves, K m'.before m'.after := by
            intro m' hm'
            obtain ⟨j, hj⟩ := List.mem_iff_getElem?.mp hm'
            exact hothers (j + 1) m' hj (Nat.succ_ne_zero j)
          rw [hbefore, hafter]
          exact ⟨hK.refl _, (rest.chained hK hrest).2⟩
      | succ i =>
          have hfirst : K first.before first.after :=
            hothers 0 first rfl (Ne.symm (Nat.succ_ne_zero i))
          rw [hbefore, hafter] at hfirst
          obtain ⟨hupTo, hsince⟩ :=
            ih hm fun j m' hm' hij => hothers (j + 1) m' hm' (by omega)
          exact ⟨hK.trans hfirst hupTo, hsince⟩
  | arrive _ _ => cases hm
  | @enter p m r _ enters selects =>
      cases i with
      | zero =>
          cases hm
          have hbefore : m.before = p.context := by cases enters <;> rfl
          rw [hbefore, (Step.select_eq_arrive selects).1]
          exact ⟨hK.refl _, hK.refl _⟩
      | succ i => cases hm

/-- Where no other move changes the value under the name of an argument, a walk leaves what the
    argument gives. -/
theorem Walk.value? {p : Position} {moves : List Move} {ending : List Entry} {r : Resolved}
    (h : p.Walk ignoreCase moves ending r) {i : Nat} {m : Move} {a : Argument}
    (hm : moves[i]? = some m) (ha : m.component = .argument a)
    (hothers : ∀ j m', moves[j]? = some m' → j ≠ i → SameValue a.name m'.before m'.after) :
    r.context.value? a.name = (a.given? m).or (p.context.value? a.name) := by
  obtain ⟨hupTo, hsince⟩ := h.chained_around (SameValue.chains a.name) hm hothers
  obtain ⟨_, _, hpasses⟩ := h.passes (List.mem_of_getElem? hm) ha
  rw [hsince, hpasses.value? ha, hupTo]

/-- The parsers of other components and the keys along a path leave what belongs to the name of an
    argument alone. -/
theorem Walk.others_keep {K : Context → Context → Prop} (hK : Chains K) {allowed : Allowed}
    (hallowed : allowed.Keeps K) {p : Position} {moves : List Move} {ending : List Entry}
    {r : Resolved} (h : p.Walk ignoreCase moves ending r)
    (hkeyed : (Component.keysAlong (moves.map (·.component))).Nodup) {i : Nat} {m : Move}
    {a : Argument} (hm : moves[i]? = some m) (ha : m.component = .argument a)
    (hkeys : ∀ key, key ≠ a.name → allowed.key key)
    (hparsers : ∀ j m', moves[j]? = some m' → j ≠ i →
      ∀ parser ∈ m'.component.parsers, parser.Within allowed) :
    ∀ j m', moves[j]? = some m' → j ≠ i → K m'.before m'.after := by
  intro j m' hm' hij
  refine h.keeps hK hallowed m' (List.mem_of_getElem? hm') ⟨hparsers j m' hm' hij, ?_⟩
  intro key hkey
  have hi : (moves.map (·.component))[i]? = some (.argument a) := by
    rw [List.getElem?_map, hm, Option.map_some, ha]
  have hj : (moves.map (·.component))[j]? = some m'.component := by
    rw [List.getElem?_map, hm', Option.map_some]
  -- the components of a path store under different keys
  refine hkeys key ?_
  rintro rfl
  exact Component.keys_apart hkeyed hi hj hij (List.mem_singleton_self _) hkey

end Position

/-- The moves of a routed line correspond to the components of the command, and for an argument of
    the command there is a move along an argument of its name. -/
theorem Tree.route_place {t : Tree} {ctx : Context} {text : String} {r : Resolved}
    (ht : t.Reachable) (h : t.route ctx text = .ok r) {i : Nat} {a : Argument}
    (ha : r.entry.command.components[i]? = some (.argument a)) :
    ∃ moves ending m shared,
      (Position.start t ctx (.ofString text)).Walk t.rules.ignoreCase moves ending r ∧
      List.Forall₂ (Component.Corresponds t.rules.ignoreCase) (moves.map (·.component))
        r.entry.command.components ∧
      moves[i]? = some m ∧ m.component = .argument shared ∧ shared.name = a.name := by
  obtain ⟨moves, ending, hwalk⟩ := Position.run_walk h
  have hpath := ht.filed.corresponds hwalk.leads _ (List.mem_of_find?_eq_some hwalk.selected)
  obtain ⟨c, hc, hcorresponds⟩ := forall₂_getElem? hpath ha
  rw [List.getElem?_map] at hc
  obtain ⟨m, hm, rfl⟩ := Option.map_eq_some_iff.mp hc
  obtain ⟨shared, hcomponent, hname⟩ := Component.argument_of_corresponds hcorresponds
  exact ⟨moves, ending, m, shared, hwalk, hpath, hm, hcomponent, hname⟩

/-- The value under the name of an argument is what the argument of its edge gives at the place of
    the line where the edge was passed, and so it is what the argument of the command gives there
    exactly when both give the same. The parsers of the other edges must not store under that name
    themselves. -/
theorem Tree.route_value {t : Tree} {ctx : Context} {text : String} {r : Resolved}
    (ht : t.Reachable) (h : t.route ctx text = .ok r) {i : Nat} {a : Argument}
    (ha : r.entry.command.components[i]? = some (.argument a)) :
    ∃ moves ending m shared,
      (Position.start t ctx (.ofString text)).Walk t.rules.ignoreCase moves ending r ∧
      List.Forall₂ (Component.Corresponds t.rules.ignoreCase) (moves.map (·.component))
        r.entry.command.components ∧
      moves[i]? = some m ∧ m.component = .argument shared ∧ shared.name = a.name ∧
      ((∀ j m', moves[j]? = some m' → j ≠ i →
          ∀ parser ∈ m'.component.parsers, parser.Within (.leaving a.name)) →
        r.context.value? a.name = (shared.given? m).or (ctx.value? a.name) ∧
        (ctx.value? a.name = none →
          (r.context.value? a.name = a.given? m ↔ shared.given? m = a.given? m))) := by
  obtain ⟨moves, ending, m, shared, hwalk, hpath, hm, hcomponent, hname⟩ := t.route_place ht h ha
  refine ⟨moves, ending, m, shared, hwalk, hpath, hm, hcomponent, hname, ?_⟩
  intro hparsers
  rw [← hname] at hparsers ⊢
  have hothers := hwalk.others_keep (SameValue.chains _) (Allowed.leaving_keeps _)
    (ht.filed.keyed hwalk.leads) hm hcomponent (fun _ hkey => hkey) hparsers
  have hvalue := hwalk.value? hm hcomponent hothers
  refine ⟨hvalue, ?_⟩
  intro hfresh
  have hstart : (Position.start t ctx (.ofString text)).context.value? shared.name = none := hfresh
  rw [hvalue, hstart, Option.or_none]

/-- `heal [amount]`, with the bounds of the amount and the one that stands for none. -/
def Command.heal (least most usual : Int) : Command where
  components :=
    [.literal { name := "heal" },
     .argument
      { name := "amount"
        parser := .integer least most
        need := .optional (some (.constant (.plain (.integer usual)))) }]

/-- A tree in which one command to heal has taken the place of another. -/
def Tree.healing : Tree :=
  (Tree.apply { rules := { replaceCommands := true } } (.insert (.heal 1 20 20))).apply
    (.insert (.heal 25 40 30))

theorem Tree.healing_reachable : Tree.healing.Reachable :=
  ⟨_, .edit (.edit (.fresh rfl) _) _⟩

theorem Tree.route_healing :
    Tree.healing.route (.ofRight "heal") "heal" =
      .ok ⟨⟨1, .heal 25 40 30⟩,
        (Context.ofRight "heal").store "amount" (.plain (.integer 20))⟩ :=
  (Position.run_of_descend rfl).trans ((Position.run_of_descend rfl).trans
    (Position.run_of_arrive rfl))

/-- The amount is what the argument of the edge gives. -/
theorem Tree.route_value_healing :
    ∃ (r : Resolved) (m : Move) (shared : Argument),
      Tree.healing.route (.ofRight "heal") "heal" = .ok r ∧ shared.name = "amount" ∧
        r.context.value? "amount" = shared.given? m := by
  obtain ⟨moves, _, m, shared, -, hpath, -, -, hname, hvalue⟩ :=
    Tree.route_value (i := 1) Tree.healing_reachable Tree.route_healing rfl
  refine ⟨_, m, shared, Tree.route_healing, hname, ?_⟩
  have hparsers : ∀ j m', moves[j]? = some m' → j ≠ 1 → m'.component.parsers = [] := by
    intro j m' hm' hj
    rcases moves with - | ⟨word, rest⟩
    · cases hm'
    · obtain ⟨hword, hrest⟩ := List.forall₂_cons.mp hpath
      cases j with
      | zero =>
          cases hm'
          exact Component.parsers_of_corresponds hword
      | succ j =>
          have hlength : rest.length = 1 := by simpa using hrest.length_eq
          obtain ⟨hlt, -⟩ := List.getElem?_eq_some_iff.mp hm'
          simp only [List.length_cons] at hlt
          omega
  rw [(hvalue ?_).1]
  · exact Option.or_none
  · intro j m' hm' hj parser hparser
    rw [hparsers j m' hm' hj] at hparser
    cases hparser

/-- A command that replaced another still has the default of the other, which its own argument gives
    nowhere. -/
theorem Tree.route_value_replaced :
    ∃ (r : Resolved) (a : Argument), Tree.healing.Reachable ∧
      Tree.healing.route (.ofRight "heal") "heal" = .ok r ∧
      r.entry.command.components[1]? = some (.argument a) ∧
      ∀ m : Move, a.given? m ≠ r.context.value? a.name := by
  refine ⟨_, _, Tree.healing_reachable, Tree.route_healing, rfl, ?_⟩
  intro m hgiven
  rw [Context.value?_store_self, Argument.given?] at hgiven
  split at hgiven
  · cases hgiven
  · -- its own parser reads no amount below 25
    have hread : (Reader.ofToken "integer" (Parser.interpretInteger 25 40) m.before m.line).value? =
        some (.plain (.integer 20)) := hgiven
    rw [Reader.ofToken] at hread
    split at hread
    · cases hread
    · simp only [Parser.interpretInteger] at hread
      split at hread
      · cases hread
      · split at hread
        · next hbounds =>
            cases hread
            omega
        · cases hread

end CommandLine
