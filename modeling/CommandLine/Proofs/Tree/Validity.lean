import CommandLine.Proofs.Tree.Ordering

/-! # Valid commands

    A command is looked at in one pass over its keys and one over its components, and the second
    remembers no more of the components so far than `Command.Progress` holds. `Command.WellFormed`
    says what the passes find out as a condition on the keys and on all pairs of components, and
    `Command.validate_eq_ok_iff` that they do. The pass over the keys reports the first that is
    there for the second time. -/

namespace CommandLine

/-- A component may come somewhere before another. -/
structure Component.ComesBefore (x y : Component) : Prop extends x.Precedes y where
  /-- Nothing follows a flag group. -/
  notFlags : x.isFlags = false

namespace Command

/-- Components that a command may have. -/
structure WellFormed (components : List Component) : Prop where
  /-- No two arguments or flags have one name. -/
  keys : (Component.keysAlong components).Nodup
  order : components.Pairwise Component.ComesBefore

/-! ## The keys -/

/-- The key that is found to be repeated is the first that was seen, or comes earlier. -/
theorem repeatedKey?_eq_some_iff {seen keys : List String} {key : String} :
    repeatedKey? seen keys = some key ↔
      ∃ before after, keys = before ++ key :: after ∧ repeatedKey? seen before = none ∧
        (key ∈ seen ∨ key ∈ before) := by
  induction keys generalizing seen with
  | nil => simp [repeatedKey?]
  | cons first rest ih =>
      by_cases hseen : first ∈ seen
      · rw [repeatedKey?_of_seen hseen]
        constructor
        · intro h
          cases h
          exact ⟨[], rest, rfl, rfl, Or.inl hseen⟩
        · rintro ⟨before, after, hsplit, hnone, -⟩
          cases before with
          | nil =>
              cases hsplit
              rfl
          | cons earlier before =>
              cases hsplit
              rw [repeatedKey?_of_seen hseen] at hnone
              cases hnone
      · rw [repeatedKey?_of_fresh hseen, ih]
        constructor
        · rintro ⟨before, after, rfl, hnone, hmem⟩
          refine ⟨first :: before, after, rfl, ?_, ?_⟩
          · rw [repeatedKey?_of_fresh hseen, hnone]
          · rw [List.mem_cons] at hmem ⊢
            tauto
        · rintro ⟨before, after, hsplit, hnone, hmem⟩
          cases before with
          | nil =>
              cases hsplit
              rcases hmem with hmem | hmem
              · exact absurd hmem hseen
              · cases hmem
          | cons earlier before =>
              cases hsplit
              rw [repeatedKey?_of_fresh hseen] at hnone
              refine ⟨before, after, rfl, hnone, ?_⟩
              rw [List.mem_cons] at hmem ⊢
              tauto

/-- The first of some keys that is there for the second time. -/
theorem repeatedKey?_nil_eq_some_iff {keys : List String} {key : String} :
    repeatedKey? [] keys = some key ↔
      ∃ before after, keys = before ++ key :: after ∧ before.Nodup ∧ key ∈ before := by
  rw [repeatedKey?_eq_some_iff]
  simp [repeatedKey?_eq_none_iff]

theorem repeatedKey?_nil_eq_none_iff {keys : List String} :
    repeatedKey? [] keys = none ↔ keys.Nodup := by
  simp [repeatedKey?_eq_none_iff]

/-! ## The order -/

/-- What the components so far ask of all components behind them. -/
structure Progress.Admits (p : Progress) (c : Component) : Prop where
  reached : p.afterFlags = false
  greedy : p.greedySeen = true → c.isFlags = true
  optional : p.optionalSeen = true → c.isRequired = false

/-- At the beginning of a command every component is admitted. -/
theorem Progress.admits_start (c : Component) : ({} : Progress).Admits c :=
  ⟨rfl, nofun, nofun⟩

/-- A component that is admitted asks of those behind it that it may come before them. -/
theorem Progress.admits_next_iff {p : Progress} {x y : Component} (h : p.Admits x) :
    (p.next x).Admits y ↔ p.Admits y ∧ x.ComesBefore y := by
  cases hflags : x.isFlags with
  | true =>
      rw [Progress.next, if_pos hflags]
      constructor
      · intro hnext
        cases hnext.reached
      · rintro ⟨-, hbefore⟩
        rw [hbefore.notFlags] at hflags
        cases hflags
  | false =>
      simp only [Progress.next, hflags, Bool.false_eq_true, if_false]
      constructor
      · rintro ⟨-, hgreedy, hoptional⟩
        simp only [Bool.or_eq_true, Bool.not_eq_true'] at hgreedy hoptional
        exact ⟨⟨h.reached, fun hp => hgreedy (Or.inl hp), fun hp => hoptional (Or.inl hp)⟩,
          ⟨fun hx => hgreedy (Or.inr hx), fun hx => hoptional (Or.inr hx)⟩, hflags⟩
      · rintro ⟨hp, hx⟩
        refine ⟨rfl, fun hgreedy => ?_, fun hoptional => ?_⟩
        · exact (Bool.or_eq_true_iff.mp hgreedy).elim hp.greedy hx.greedy
        · rw [Bool.or_eq_true, Bool.not_eq_true'] at hoptional
          exact hoptional.elim hp.optional hx.optional

/-- The check of the order admits a component and goes on behind it. -/
theorem checkOrder_cons_iff_admits {path : String} {c : Component} {rest : List Component}
    {p : Progress} :
    checkOrder path p (c :: rest) = .ok () ↔
      p.Admits c ∧ checkOrder path (p.next c) rest = .ok () := by
  rw [checkOrder_cons_iff]
  constructor
  · rintro ⟨hreached, hgreedy, hoptional, hrest⟩
    refine ⟨⟨hreached, hgreedy, fun hseen => ?_⟩, hrest⟩
    cases hflags : c.isFlags with
    | true => exact Component.isRequired_of_isFlags hflags
    | false => exact hoptional hseen hflags
  · rintro ⟨hadmits, hrest⟩
    exact ⟨hadmits.reached, hadmits.greedy, fun hseen _ => hadmits.optional hseen, hrest⟩

/-- Components pass the check of their order exactly if those so far admit all of them, and each may
    come before all behind it. -/
theorem checkOrder_eq_ok_iff {path : String} {components : List Component} {p : Progress} :
    checkOrder path p components = .ok () ↔
      (∀ c ∈ components, p.Admits c) ∧ components.Pairwise Component.ComesBefore := by
  -- for every progress at once, because each component makes some
  induction components generalizing p with
  | nil => simp [checkOrder]
  | cons c rest ih =>
      rw [checkOrder_cons_iff_admits, ih, List.forall_mem_cons, List.pairwise_cons]
      constructor
      · rintro ⟨hc, hrest, horder⟩
        refine ⟨⟨hc, fun y hy => ?_⟩, fun y hy => ?_, horder⟩
        · exact ((Progress.admits_next_iff hc).mp (hrest y hy)).1
        · exact ((Progress.admits_next_iff hc).mp (hrest y hy)).2
      · rintro ⟨⟨hc, hrest⟩, hbefore, horder⟩
        refine ⟨hc, fun y hy => ?_, horder⟩
        exact (Progress.admits_next_iff hc).mpr ⟨hrest y hy, hbefore y hy⟩

/-- Where the order is wrong, the error is about one of the components. -/
theorem checkOrder_error {path : String} {components : List Component} {p : Progress}
    {e : RegistrationError} (h : checkOrder path p components = .error e) :
    ∃ c ∈ components, e = .unreachableAfterGreedy path c.name ∨
      e = .requiredAfterOptional path c.name := by
  induction components generalizing p with
  | nil => cases h
  | cons c rest ih =>
      rw [checkOrder] at h
      split at h
      · cases h
        exact ⟨c, List.mem_cons_self, Or.inl rfl⟩
      · split at h
        · cases h
          exact ⟨c, List.mem_cons_self, Or.inr rfl⟩
        · obtain ⟨wrong, hmem, hwrong⟩ := ih h
          exact ⟨wrong, List.mem_cons_of_mem _ hmem, hwrong⟩

/-! ## The command -/

theorem validate_of_nil {c : Command} (h : c.components = []) :
    c.validate = .error .emptyCommand := by
  rw [validate, h]
  rfl

/-- The keys are looked at before the order is. -/
theorem validate_of_ne_nil {c : Command} (h : c.components ≠ []) :
    c.validate = match repeatedKey? [] (Component.keysAlong c.components) with
      | some key => .error (.duplicateKey c.usage key)
      | none => checkOrder c.usage {} c.components := by
  rw [validate, if_neg (mt List.isEmpty_iff.mp h)]
  rfl

/-- A command is valid exactly if it has components and they are well-formed. -/
theorem validate_eq_ok_iff {c : Command} :
    c.validate = .ok () ↔ c.components ≠ [] ∧ WellFormed c.components := by
  by_cases hnil : c.components = []
  · simp [validate_of_nil hnil, hnil]
  · rw [validate_of_ne_nil hnil]
    cases hkeys : repeatedKey? [] (Component.keysAlong c.components) with
    | some key =>
        constructor
        · intro h
          cases h
        · rintro ⟨-, hwell⟩
          rw [repeatedKey?_nil_eq_none_iff.mpr hwell.keys] at hkeys
          cases hkeys
    | none =>
        rw [checkOrder_eq_ok_iff]
        constructor
        · rintro ⟨-, horder⟩
          exact ⟨hnil, repeatedKey?_nil_eq_none_iff.mp hkeys, horder⟩
        · rintro ⟨-, hwell⟩
          exact ⟨fun c _ => Progress.admits_start c, hwell.order⟩

/-- A key is reported exactly if it is the first that is repeated, whatever else is wrong. -/
theorem validate_eq_duplicateKey_iff {c : Command} {path key : String} :
    c.validate = .error (.duplicateKey path key) ↔
      path = c.usage ∧ repeatedKey? [] (Component.keysAlong c.components) = some key := by
  by_cases hnil : c.components = []
  · simp [validate_of_nil hnil, hnil, Component.keysAlong, repeatedKey?]
  · rw [validate_of_ne_nil hnil]
    cases hkeys : repeatedKey? [] (Component.keysAlong c.components) with
    | some found => simp [eq_comm]
    | none =>
        constructor
        · intro h
          obtain ⟨_, -, hwrong | hwrong⟩ := checkOrder_error h
          · cases hwrong
          · cases hwrong
        · rintro ⟨-, hfound⟩
          cases hfound

/-- Exactly the well-formed commands are valid. Where two values would be stored under one key, the
    key is reported that is the first, in the order of components and flags, to be there for the
    second time. -/
theorem validate_iff_wellFormed (c : Command) :
    (c.validate = .ok () ↔ c.components ≠ [] ∧ WellFormed c.components) ∧
      ∀ path key, c.validate = .error (.duplicateKey path key) ↔
        path = c.usage ∧ ∃ before after,
          Component.keysAlong c.components = before ++ key :: after ∧ before.Nodup ∧
            key ∈ before := by
  refine ⟨validate_eq_ok_iff, fun path key => ?_⟩
  rw [validate_eq_duplicateKey_iff, repeatedKey?_nil_eq_some_iff]

end Command

end CommandLine
