import CommandLine.Proofs.Route.Spelling

/-! # Values are stored once

    Commands share edges, so the components along a path may come from several of them, and no
    validation has looked at them together. Still no two components of a path store under one key
    (`Node.Filed.keyed`): whoever adds a command along an edge has the keys of that edge itself. A
    pass takes the components of a path, whether it comes to a command or fails on the way, so it
    stores under each key once, and what an argument has left under its name is what the command
    finds there (`Tree.Reachable.stores_once`).

    The parser of a later component might store under any name by itself: one of the surrounding
    program does what it likes, and flags that are read as the value of an argument have names that
    no validation looks at (`Tree.overwritten_by_flags`). `Allowed.leaving` is what such parsers are
    made of that do not. -/

namespace CommandLine

namespace Position

variable {ignoreCase : Bool}

/-- The moves of a pass from a position to another, whatever comes of the pass then. -/
inductive Comes (ignoreCase : Bool) : Position → List Move → Position → Prop where
  | here {p : Position} : Comes ignoreCase p [] p
  | on {p next q : Position} {m : Move} {moves : List Move}
      (step : p.step ignoreCase = .descend next) (passes : p.skipBlank.Passes ignoreCase m next)
      (rest : Comes ignoreCase next moves q) : Comes ignoreCase p (m :: moves) q

/-- A step passes the edge of its component. -/
theorem Passes.leads {p q : Position} {m : Move} (h : p.Passes ignoreCase m q)
    {path : List Component} {ending : List Entry} (hpath : q.node.Leads path ending) :
    p.node.Leads (m.component :: path) ending := by
  cases h with
  | word found _ => exact .literal (List.mem_of_find?_eq_some found) hpath
  | read edge _ _ => exact .argument edge hpath
  | skipped edge _ _ _ => exact .argument edge hpath

/-- What lies before a pass lies behind the components that it has passed. -/
theorem Comes.leads {p q : Position} {moves : List Move} (h : p.Comes ignoreCase moves q)
    {path : List Component} {ending : List Entry} (hpath : q.node.Leads path ending) :
    p.node.Leads (moves.map (·.component) ++ path) ending := by
  induction h with
  | here => exact hpath
  | on _ passes _ ih => exact passes.leads (ih hpath)

/-- What all moves behind one keep is kept from that one to the end. -/
theorem Walk.chained_after {K : Context → Context → Prop} (hK : Chains K) {p : Position}
    {moves : List Move} {ending : List Entry} {r : Resolved} (h : p.Walk ignoreCase moves ending r)
    {i : Nat} {m : Move} (hm : moves[i]? = some m)
    (hbehind : ∀ j m', i < j → moves[j]? = some m' → K m'.before m'.after) :
    K m.after r.context := by
  induction h generalizing i with
  | @descend p q first moves ending r _ passes rest ih =>
      have hafter : first.after = q.context := by cases passes <;> rfl
      cases i with
      | zero =>
          cases hm
          rw [hafter]
          refine (rest.chained hK fun m' hm' => ?_).2
          obtain ⟨j, hj⟩ := List.mem_iff_getElem?.mp hm'
          exact hbehind (j + 1) m' (Nat.zero_lt_succ j) hj
      | succ i => exact ih hm fun j m' hij hm' => hbehind (j + 1) m' (Nat.succ_lt_succ hij) hm'
  | arrive _ _ => cases hm
  | enter _ _ selects =>
      obtain rfl := List.mem_singleton.mp (List.mem_of_getElem? hm)
      rw [(Step.select_eq_arrive selects).1]
      exact hK.refl _

end Position

/-- In a reachable tree no two components of a path store under one key. So a pass, whether it comes
    to a command or not, passes no two edges that store under one key, and no flag of the group that
    it may read at last has a key that was stored under. What an argument leaves under its name on
    the way to a command is therefore what the command finds, unless a parser behind it stores under
    that name by itself. -/
theorem Tree.Reachable.stores_once {t : Tree} (ht : t.Reachable) :
    (∀ path ending, t.root.Leads path ending → (Component.keysAlong path).Nodup) ∧
    (∀ ctx text moves q,
      (Position.start t ctx (.ofString text)).Comes t.rules.ignoreCase moves q →
        (Component.keysAlong (moves.map (·.component))).Nodup ∧
        ∀ g ending, q.node.flags = some (g, ending) →
          (Component.keysAlong (moves.map (·.component) ++ [.flags g])).Nodup) ∧
    ∀ ctx text r, t.route ctx text = .ok r →
      ∃ moves ending,
        (Position.start t ctx (.ofString text)).Walk t.rules.ignoreCase moves ending r ∧
        List.Forall₂ (Component.Corresponds t.rules.ignoreCase) (moves.map (·.component))
          r.entry.command.components ∧
        ∀ (i : Nat) (m : Move) (a : Argument), moves[i]? = some m → m.component = .argument a →
          (∀ (j : Nat) (m' : Move), moves[j]? = some m' → j ≠ i → a.name ∉ m'.component.storedKeys) ∧
          ((∀ (j : Nat) (m' : Move), i < j → moves[j]? = some m' →
              ∀ parser ∈ m'.component.parsers, parser.Within (.leaving a.name)) →
            r.context.value? a.name = m.after.value? a.name) := by
  have hkeyed {path : List Component} {ending : List Entry} (h : t.root.Leads path ending) :
      (Component.keysAlong path).Nodup := ht.filed.keyed h
  refine ⟨fun path ending => hkeyed, fun ctx text moves q hcomes => ⟨?_, ?_⟩, ?_⟩
  · have hpath := hkeyed (hcomes.leads .here)
    rwa [List.append_nil] at hpath
  · exact fun g ending hflags => hkeyed (hcomes.leads (.flags hflags))
  · intro ctx text r h
    obtain ⟨moves, ending, hwalk⟩ := Position.run_walk h
    refine ⟨moves, ending, hwalk,
      ht.filed.corresponds hwalk.leads _ (List.mem_of_find?_eq_some hwalk.selected), ?_⟩
    intro i m a hm ha
    have hcomponent {j : Nat} {m' : Move} (hm' : moves[j]? = some m') :
        (moves.map (·.component))[j]? = some m'.component := by
      rw [List.getElem?_map, hm', Option.map_some]
    have hothers : ∀ j (m' : Move), moves[j]? = some m' → j ≠ i →
        a.name ∉ m'.component.storedKeys := by
      intro j m' hm' hij
      have hown := hcomponent hm
      rw [ha] at hown
      exact Component.keys_apart (hkeyed hwalk.leads) hown (hcomponent hm') hij
        (List.mem_singleton_self _)
    refine ⟨hothers, fun hparsers => ?_⟩
    refine hwalk.chained_after (SameValue.chains a.name) hm fun j m' hij hm' => ?_
    refine hwalk.keeps (SameValue.chains a.name) (Allowed.leaving_keeps a.name) m'
      (List.mem_of_getElem? hm') ⟨hparsers j m' hij hm', ?_⟩
    rintro key hkey rfl
    exact hothers j m' hm' (Nat.ne_of_gt hij) hkey

/-- The receiver is the one that was read, whatever is read after it. -/
theorem Tree.stores_once_sending :
    ∃ (r : Resolved) (m : Move) (receiver : Argument),
      Tree.sending.route (.ofRight "send") "send me  --silent" = .ok r ∧
        m.component = .argument receiver ∧ receiver.name = "to" ∧
        r.context.value? "to" = m.after.value? "to" := by
  obtain ⟨-, -, hroutes⟩ := Tree.Reachable.stores_once Tree.sending_built.reachable
  obtain ⟨moves, ending, hwalk, hpath, hstores⟩ := hroutes _ _ _ Tree.route_sending
  obtain ⟨c, hc, hcorresponds⟩ := forall₂_getElem? hpath (i := 1) rfl
  obtain ⟨receiver, rfl, hname⟩ := Component.argument_of_corresponds hcorresponds
  rw [List.getElem?_map] at hc
  obtain ⟨m, hm, hcomponent⟩ := Option.map_eq_some_iff.mp hc
  obtain ⟨-, hkept⟩ := hstores 1 m receiver hm hcomponent
  -- none of the parsers in this tree stores anything
  have hplain := hwalk.carried
    (Tree.sending_built.carries fun _ _ _ _ p hp => absurd hp List.not_mem_nil)
  have hvalue := hkept fun j m' _ hm' parser hparser =>
    (hplain m' (List.mem_of_getElem? hm') parser hparser).of_library (fun _ => trivial)
      fun _ => trivial
  have hname : receiver.name = "to" := hname
  rw [hname] at hvalue
  exact ⟨_, m, receiver, Tree.route_sending, hcomponent, hname, hvalue⟩

/-- `announce <loud> <manner>`, of which the second argument is read as flags. -/
def Command.announce : Command where
  components :=
    [.literal { name := "announce" },
     .argument { name := "loud", parser := .text .word },
     .argument { name := "manner", parser := .flags [{ name := "loud" }] }]

/-- A tree in which flags are read as the value of an argument. -/
def Tree.announcing : Tree :=
  ({} : Tree).apply (.insert .announce)

theorem Tree.route_announcing :
    Tree.announcing.route (.ofRight "announce") "announce horn --loud" =
      .ok ⟨⟨0, .announce⟩, ((((((Context.ofRight "announce").store "loud"
        (.plain (.text "horn"))).recordConsumed "loud" "horn").store "loud"
          (.plain (.truth true))).markFlag "loud").store "manner" (.plain .unit)).recordConsumed
            "manner" "--loud"⟩ :=
  (Position.run_of_descend rfl).trans ((Position.run_of_descend rfl).trans
    ((Position.run_of_descend rfl).trans (Position.run_of_arrive rfl)))

/-- A flag that is read by the parser of an argument is stored under its name, which may be the name
    of an argument before it. Then the command does not find what that argument has left. -/
theorem Tree.overwritten_by_flags :
    Tree.announcing.Reachable ∧
      ∃ (moves : List Move) (ending : List Entry) (r : Resolved) (m : Move) (a : Argument),
        Tree.announcing.route (.ofRight "announce") "announce horn --loud" = .ok r ∧
        (Position.start Tree.announcing (.ofRight "announce")
          (.ofString "announce horn --loud")).Walk false moves ending r ∧
        m ∈ moves ∧ m.component = .argument a ∧
        m.after.value? a.name = some (.plain (.text "horn")) ∧
        r.context.value? a.name = some (.plain (.truth true)) := by
  have hwalk : (Position.start Tree.announcing (.ofRight "announce")
      (.ofString "announce horn --loud")).Walk false _ _ _ :=
    .descend rfl (.word rfl rfl) (.descend rfl (.read rfl rfl rfl)
      (.descend rfl (.read rfl rfl rfl) (.arrive rfl rfl)))
  exact ⟨⟨_, .edit (.fresh rfl) _⟩, _, _, _, _, _, route_announcing, hwalk,
    List.mem_cons_of_mem _ List.mem_cons_self, rfl, rfl, rfl⟩

end CommandLine
