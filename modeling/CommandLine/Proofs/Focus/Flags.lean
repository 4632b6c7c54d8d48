import CommandLine.Parser.Suggest
import CommandLine.Proofs.Flag.Tokens
import CommandLine.Proofs.Focus.Lockstep
import CommandLine.Proofs.Parser.Steady

/-! # The flags before the one that is being typed

    To complete a flag, the flags before it are passed in a second, shorter version of the loop that
    reads a flag group. Both loops are cut into turns here: a turn looks up the flags of a token or
    gives one of them. `Stage.give` is a turn of the reading and `Stage.pass` one of the completion;
    `readGroup_eq_finish` and `locate_eq_place` say that the loops are made of these turns.

    The completion neither asks whether a token looks like a flag nor whether a flag may be given,
    and it marks a flag without a value but does not store that it is true. `Stage.Faithful` says of
    a turn that none of this makes a difference, and `Stage.follows_iff` that the two loops are in
    step exactly as far as all turns are faithful. -/

namespace CommandLine

theorem Store.put_eq_self_iff {α : Type} {store : Store α} {name : String} {value : α} :
    store.put name value = store ↔ store.get? name = some value := by
  obtain ⟨entries⟩ := store
  simp only [put, get?, Store.mk.injEq]
  induction entries with
  | nil => simp [putEntry]
  | cons e entries ih =>
      obtain ⟨key, old⟩ := e
      by_cases h : name = key
      · subst h
        simp [putEntry, eq_comm]
      · simp [putEntry, beq_false_of_ne h, lookup_cons_ite, h, ih]

namespace Flag

/-! ## Stages -/

/-- A place in the flags of a line: the flags of the last token that are still to be given. -/
structure Stage where
  pending : List (Flag Parser)
  token : String
  context : Context
  line : Line

namespace Stage

/-- The stage before the flags of a line. -/
def start (ctx : Context) (line : Line) : Stage :=
  ⟨[], "", ctx, line⟩

/-- The stage after the flags of the next token were looked up. -/
def lookUp (group : List (Flag Parser)) (s : Stage) : Option Stage :=
  (resolve group s.line.peekToken).map fun flags =>
    ⟨flags, s.line.peekToken, s.context, s.line.skipToken⟩

/-- A turn of the reading of a flag group. -/
def give (group : List (Flag Parser)) (s : Stage) : Option Stage :=
  match s.pending with
  | flag :: rest =>
    let r := (flag.map Parser.read).read s.token s.context s.line
    match r.result with
    | .ok () => some ⟨rest, s.token, r.context, r.line⟩
    | .error _ => none
  | [] =>
    if s.line.isBlank || !looksLikeFlag s.line.peekToken then none else s.lookUp group

/-- A turn of the completion of a flag group. -/
def pass (group : List (Flag Parser)) (s : Stage) : Option Stage :=
  match s.pending with
  | flag :: rest =>
    match (flag.map Parser.ability).pass s.context s.line with
    | .ok (ctx, line) => some ⟨rest, s.token, ctx, line⟩
    | .error _ => none
  | [] => if s.line.isLastToken then none else s.lookUp group

/-- What is read of a flag group from a stage on. -/
def finish (group : List (Flag Parser)) (fuel : Nat) (s : Stage) : Reading Unit :=
  (readEach s.token (s.pending.map (Flag.map Parser.read)) s.context s.line).andThen
    fun () => readTokens (group.map (Flag.map Parser.read)) fuel

/-- What is found of a flag group from a stage on. -/
def seek (group : List (Flag Parser)) (fuel : Nat) (s : Stage) : Place :=
  match passEach (s.pending.map (Flag.map Parser.ability)) s.context s.line with
  | .error place => place
  | .ok (ctx, line) => locateAfter (group.map (Flag.map Parser.ability)) fuel ctx line

/-- What the token that is being typed belongs to, at a stage after which no flag is passed. -/
def place (s : Stage) : Place :=
  if s.line.isLastToken then
    match s.pending with
    | [] => .name s.context s.line
    | flag :: _ => match flag.value with
      | none => .nowhere
      | some p => .value p.suggest s.context s.line
  else .nowhere

/-- Stages of the two loops that stand at the same place, with the same known. -/
structure InStep (s t : Stage) : Prop where
  pending : s.pending = t.pending
  token : s.token = t.token
  context : s.context.Alike t.context
  line : s.line.Agrees t.line

/-- A turn of the completion that is also one of the reading: the flag may be given, and if it takes
    no value, it is known to be true; or the token looks like a flag. -/
def Faithful (s : Stage) : Prop :=
  match s.pending with
  | flag :: _ => flag.objection? s.context s.token = none ∧
      (flag.value = none → s.context.value? flag.name = some (.plain (.truth true)))
  | [] => looksLikeFlag s.line.peekToken = true

variable {group : List (Flag Parser)} {s t t' : Stage}

/-- The flags whose values are read steadily. -/
def Settled (s : Stage) : Prop :=
  ∀ flag ∈ s.pending, (flag.map Parser.read).Steady

theorem settled_lookUp (hgroup : ∀ flag ∈ group, (flag.map Parser.read).Steady)
    (h : s.lookUp group = some t) : t.Settled := by
  obtain ⟨flags, hflags, rfl⟩ := Option.map_eq_some_iff.mp h
  exact fun flag hflag => hgroup flag (mem_of_resolve hflags flag hflag)

theorem settled_pass (hgroup : ∀ flag ∈ group, (flag.map Parser.read).Steady) (hs : s.Settled)
    (h : s.pass group = some t) : t.Settled := by
  obtain ⟨pending, token, ctx, line⟩ := s
  cases pending with
  | nil =>
      simp only [pass] at h
      split at h
      · cases h
      · exact settled_lookUp hgroup h
  | cons flag rest =>
      simp only [pass] at h
      split at h <;> cases h
      exact (List.forall_mem_cons.mp hs).2

/-- Where the flags of a token are looked up in step, the stages stay in step exactly if the token
    looks like a flag. -/
theorem InStep.lookUp (h : s.InStep t) (hpending : t.pending = [])
    (hpass : t.pass group = some t') :
    (∃ s', s.give group = some s' ∧ s'.InStep t') ↔ t.Faithful := by
  obtain ⟨pending, token, ctx, line⟩ := t
  obtain ⟨pending', token', ctx', line'⟩ := s
  obtain ⟨rfl, rfl, hctx, hline⟩ := h
  cases hpending
  simp only [pass] at hpass
  split at hpass
  · cases hpass
  · next hlast =>
      obtain ⟨flags, hflags, rfl⟩ := Option.map_eq_some_iff.mp hpass
      have hblank := Line.isBlank_of_further hlast
      simp only [Faithful, give, Stage.lookUp, hline.isBlank, hline.peekToken, hline.skipToken,
        hblank, hflags, Bool.false_or]
      constructor
      · rintro ⟨s', hgive, -⟩
        by_contra hlooks
        simp [hlooks] at hgive
      · intro hlooks
        simp only [hlooks, Bool.not_true, Bool.false_eq_true, if_false]
        exact ⟨_, rfl, rfl, rfl, hctx, .refl _⟩

/-- Marks alone tell contexts apart in which a value was stored for only one of them. -/
theorem alike_store_iff {a b : Context} (h : a.Alike b) (name : String) (value : Value) :
    ((a.store name value).markFlag name).Alike (b.markFlag name) ↔
      b.value? name = some value := by
  have hput : (a.store name value).values = b.values ↔ b.value? name = some value := by
    show a.values.put name value = b.values ↔ _
    rw [h.values]
    exact Store.put_eq_self_iff
  rw [← hput]
  refine ⟨fun halike => halike.values, fun hvalues => ?_⟩
  have hflags : ((a.store name value).markFlag name).flags = (b.markFlag name).flags :=
    (h.markFlag name).flags
  exact ⟨h.sender, hvalues, hflags, h.notes, h.checker⟩

/-- A flag whose value is passed is not the last token, and its parser reads the value. -/
theorem pass_value_ok {flag : Flag Parser} {p : Parser} {ctx ctx' : Context} {line after : Line}
    (hvalue : flag.value = some p)
    (h : (flag.map Parser.ability).pass ctx line = .ok (ctx', after)) :
    line.isBlank = false ∧ ∃ value, (p.read ctx line).result = .ok value ∧
      ctx' = ((p.read ctx line).context.store flag.name value).markFlag flag.name ∧
      after = (p.read ctx line).line := by
  simp only [Flag.pass, Flag.map, hvalue, Option.map_some, Parser.ability] at h
  split at h
  · cases h
  · next hlast =>
      have hblank := Line.isBlank_of_further hlast
      split at h
      · next value hok =>
          cases h
          exact ⟨hblank, value, hok, rfl, rfl⟩
      · cases h

/-- A flag that may be given is given with the value that its parser reads. -/
theorem read_value_ok {flag : Flag Parser} {p : Parser} {token : String} {ctx : Context}
    {line : Line} {value : Value} (hvalue : flag.value = some p)
    (hmay : (flag.map Parser.read).objection? ctx token = none) (hblank : line.isBlank = false)
    (hok : (p.read ctx line).result = .ok value) :
    (flag.map Parser.read).read token ctx line =
      ⟨.ok (),
        flag.givenValue value ((p.read ctx line).line.readSince line) (p.read ctx line).context,
        (p.read ctx line).line⟩ := by
  simp only [Flag.read, hmay]
  simp [Flag.map, hvalue, hblank, Reading.withFact, Reading.andThen, hok, Except.mapError,
    givenValue]

theorem give_cons {flag : Flag Parser} {rest : List (Flag Parser)} {ctx : Context} {line : Line}
    (hpending : s.pending = flag :: rest)
    (h : (flag.map Parser.read).read s.token s.context s.line = ⟨.ok (), ctx, line⟩) :
    s.give group = some ⟨rest, s.token, ctx, line⟩ := by
  simp only [give, hpending, h]

/-- A flag with a value that may be given is given in step. -/
theorem InStep.value (h : s.InStep t) {flag : Flag Parser} {rest : List (Flag Parser)} {p : Parser}
    (hpending : t.pending = flag :: rest) (hvalue : flag.value = some p)
    (hsteady : Reader.Steady p.read)
    (hmay : (flag.map Parser.read).objection? s.context s.token = none)
    (hpass : t.pass group = some t') : ∃ s', s.give group = some s' ∧ s'.InStep t' := by
  simp only [pass, hpending] at hpass
  split at hpass
  · next ctx after hpassing =>
      cases hpass
      obtain ⟨hblank, value, hok, rfl, rfl⟩ := pass_value_ok hvalue hpassing
      have hread := hsteady.similar h.context h.line
      have hgives := read_value_ok hvalue hmay (h.line.isBlank.trans hblank)
        (hread.result.trans hok)
      refine ⟨_, give_cons (h.pending.trans hpending) hgives, rfl, h.token, ?_, hread.line⟩
      exact ((hread.context.store _ value).recordConsumed _ _).markFlag _
  · cases hpass

/-- Where a flag is given in step, the stages stay in step exactly if it may be given and, taking no
    value, is known to be true. -/
theorem InStep.flag (h : s.InStep t) {flag : Flag Parser} {rest : List (Flag Parser)}
    (hpending : t.pending = flag :: rest) (hsteady : (flag.map Parser.read).Steady)
    (hpass : t.pass group = some t') :
    (∃ s', s.give group = some s' ∧ s'.InStep t') ↔ t.Faithful := by
  have hmay : (flag.map Parser.read).objection? s.context s.token =
      flag.objection? t.context t.token := by
    rw [h.token]
    exact objection_eq h.context flag t.token
  have hfaithful : t.Faithful ↔ flag.objection? t.context t.token = none ∧
      (flag.value = none → t.context.value? flag.name = some (.plain (.truth true))) := by
    simp only [Faithful, hpending]
  rw [hfaithful]
  cases hobjection : flag.objection? t.context t.token with
  | some e =>
      -- the reading ends here, and the completion goes on
      have hread : (flag.map Parser.read).read s.token s.context s.line =
          ⟨.error e, s.context, s.line⟩ :=
        read_refused (hmay.trans hobjection) s.line
      simp [give, h.pending, hpending, hread]
  | none =>
      cases hvalue : flag.value with
      | some p =>
          -- both store the value and mark the flag
          have hp : Reader.Steady p.read := hsteady _ (by simp [Flag.map, hvalue])
          simpa using h.value hpending hvalue hp (hmay.trans hobjection) hpass
      | none =>
          -- the reading stores that the flag is true, the completion only marks it
          have hread : (flag.map Parser.read).read s.token s.context s.line =
              ⟨.ok (), flag.given s.context, s.line⟩ :=
            read_valueless (value_map_none hvalue _) (hmay.trans hobjection) s.line
          have ht' : t' = ⟨rest, t.token, t.context.markFlag flag.name, t.line⟩ := by
            simp [pass, hpending, Flag.pass, Flag.map, hvalue] at hpass
            exact hpass.symm
          subst ht'
          have hstore := alike_store_iff h.context flag.name (.plain (.truth true))
          simp only [give_cons (h.pending.trans hpending) hread, Option.some.injEq,
            exists_eq_left', true_and, forall_const]
          rw [← hstore]
          exact ⟨fun hstep => hstep.context, fun halike => ⟨rfl, h.token, halike, h.line⟩⟩

/-- The two loops are in step exactly as far as all turns are faithful. -/
theorem follows_iff (hgroup : ∀ flag ∈ group, (flag.map Parser.read).Steady)
    {ctx ctx' : Context} {line line' : Line} (hctx : ctx.Alike ctx') (hline : line.Agrees line') :
    Follows InStep (give group) (pass group) (start ctx line) (start ctx' line') ↔
      ∀ n s, turns (pass group) n (start ctx' line') = some s →
        ∀ s', s.pass group = some s' → s.Faithful := by
  refine CommandLine.follows_iff ⟨rfl, rfl, hctx, hline⟩ (I := Settled) (by simp [Settled, start])
    (settled_pass hgroup) ?_
  intro a b b' hstep hsettled hpass
  cases hpending : b.pending with
  | nil => exact hstep.lookUp hpending hpass
  | cons flag rest =>
      refine hstep.flag hpending (hsettled flag ?_) hpass
      rw [hpending]
      exact List.mem_cons_self

/-! ## The loops -/

theorem settled_give (hgroup : ∀ flag ∈ group, (flag.map Parser.read).Steady) (hs : s.Settled)
    (h : s.give group = some t) : t.Settled := by
  obtain ⟨pending, token, ctx, line⟩ := s
  cases pending with
  | nil =>
      simp only [give] at h
      split at h
      · cases h
      · exact settled_lookUp hgroup h
  | cons flag rest =>
      simp only [give] at h
      split at h <;> cases h
      exact (List.forall_mem_cons.mp hs).2

/-- A turn of the reading takes its part of what is read. -/
theorem finish_give (hs : s.Settled) (h : s.give group = some t) {n : Nat}
    (hn : s.line.rest.length ≤ n) :
    ∃ m, t.line.rest.length ≤ m ∧ s.finish group n = t.finish group m := by
  obtain ⟨pending, token, ctx, line⟩ := s
  cases pending with
  | cons flag rest =>
      have hlength := (List.forall_mem_cons.mp hs).1.moves.read Line.advances_shrinks token ctx line
      simp only [give] at h
      split at h <;> cases h
      next hok =>
        refine ⟨n, Nat.le_trans hlength hn, ?_⟩
        simp only [finish, List.map_cons, readEach, Reading.andThen, hok]
  | nil =>
      simp only [give] at h
      split at h
      · cases h
      · next hlooks =>
          obtain ⟨flags, hflags, rfl⟩ := Option.map_eq_some_iff.mp h
          simp only [Bool.or_eq_true, Bool.not_eq_true', not_or, Bool.not_eq_true,
            Bool.not_eq_false] at hlooks
          have hshorter := Line.length_rest_skipToken_lt hlooks.1
          have hn' : line.rest.length ≤ n := hn
          obtain ⟨k, rfl⟩ : ∃ k, n = k + 1 := ⟨n - 1, by omega⟩
          refine ⟨k, by show line.skipToken.rest.length ≤ k; omega, ?_⟩
          simp only [finish, List.map_nil, readEach, Reading.andThen]
          rw [readTokens]
          simp only [hlooks.1, hlooks.2, resolve_map, hflags, Bool.false_eq_true, if_false, if_true,
            Option.map_some, Reading.andThen]

/-- The loop that reads a flag group is made of turns. -/
theorem readGroup_eq_finish (hgroup : ∀ flag ∈ group, (flag.map Parser.read).Steady)
    {ctx : Context} {line : Line} {n : Nat} (h : turns (give group) n (start ctx line) = some s) :
    ∃ m, s.line.rest.length ≤ m ∧
      readGroup (group.map (Flag.map Parser.read)) ctx line = s.finish group m := by
  have hkept : s.Settled ∧ ∃ m, s.line.rest.length ≤ m ∧
      readGroup (group.map (Flag.map Parser.read)) ctx line = s.finish group m := by
    refine turns_keep (I := fun s : Stage => s.Settled ∧ ∃ m, s.line.rest.length ≤ m ∧
      readGroup (group.map (Flag.map Parser.read)) ctx line = s.finish group m) ?_ ?_ h
    · exact ⟨by simp [Settled, start], line.rest.length, Nat.le_refl _, rfl⟩
    · rintro v u ⟨hsettled, m, hm, hread⟩ hgive
      obtain ⟨k, hk, hfinish⟩ := finish_give hsettled hgive hm
      exact ⟨settled_give hgroup hsettled hgive, k, hk, hread.trans hfinish⟩
  exact hkept.2

/-- Passing a flag goes no way back. -/
theorem length_pass_le {flag : Flag Parser} (hsteady : (flag.map Parser.read).Steady)
    {ctx ctx' : Context} {line after : Line}
    (h : (flag.map Parser.ability).pass ctx line = .ok (ctx', after)) :
    after.rest.length ≤ line.rest.length := by
  cases hvalue : flag.value with
  | none =>
      simp only [Flag.pass, Flag.map, hvalue, Option.map_none] at h
      cases h
      exact Nat.le_refl _
  | some p =>
      obtain ⟨-, value, -, -, rfl⟩ := pass_value_ok hvalue h
      exact (hsteady p.read (by simp [Flag.map, hvalue])).length_le ctx line

/-- A turn of the completion looks up a token, which makes the line shorter, or passes a flag. -/
theorem pass_lt (hs : s.Settled) (h : s.pass group = some t) :
    t.line.rest.length < s.line.rest.length ∨
      t.line.rest.length ≤ s.line.rest.length ∧ t.pending.length < s.pending.length := by
  obtain ⟨pending, token, ctx, line⟩ := s
  cases pending with
  | cons flag rest =>
      simp only [pass] at h
      split at h
      · next ctx' after hpassing =>
          cases h
          exact .inr ⟨length_pass_le (List.forall_mem_cons.mp hs).1 hpassing, Nat.lt_succ_self _⟩
      · cases h
  | nil =>
      simp only [pass] at h
      split at h
      · cases h
      · next hlast =>
          obtain ⟨flags, -, rfl⟩ := Option.map_eq_some_iff.mp h
          exact .inl (Line.length_rest_skipToken_lt (Line.isBlank_of_further hlast))

/-- A turn of the completion takes its part of the search. -/
theorem seek_pass (hs : s.Settled) (h : s.pass group = some t) {n : Nat}
    (hn : s.line.rest.length ≤ n) :
    ∃ m, t.line.rest.length ≤ m ∧ s.seek group n = t.seek group m := by
  have hlength := pass_lt hs h
  obtain ⟨pending, token, ctx, line⟩ := s
  cases pending with
  | cons flag rest =>
      simp only [pass] at h
      split at h
      · next ctx' after hpassing =>
          cases h
          refine ⟨n, by simp only at hlength hn ⊢; omega, ?_⟩
          simp only [seek, List.map_cons, passEach, hpassing]
      · cases h
  | nil =>
      simp only [pass] at h
      split at h
      · cases h
      · next hlast =>
          obtain ⟨flags, hflags, rfl⟩ := Option.map_eq_some_iff.mp h
          simp only [List.length_nil, Nat.not_lt_zero, and_false, or_false] at hlength hn
          obtain ⟨k, rfl⟩ : ∃ k, n = k + 1 := ⟨n - 1, by omega⟩
          refine ⟨k, by simp only; omega, ?_⟩
          simp only [seek, List.map_nil, passEach]
          rw [locateAfter]
          simp only [hlast, resolve_map, hflags, Option.map_some]
          rfl

/-- Where no turn is left, the search ends. -/
theorem seek_place (h : s.pass group = none) {n : Nat} (hn : s.line.rest.length ≤ n) :
    s.seek group n = s.place := by
  obtain ⟨pending, token, ctx, line⟩ := s
  cases pending with
  | cons flag rest =>
      simp only [pass] at h
      split at h
      · cases h
      · next place hpassing =>
          simp only [seek, List.map_cons, passEach, hpassing, Stage.place]
          simp only [Flag.pass, Flag.map] at hpassing
          cases hvalue : flag.value with
          | none =>
              -- a flag without a value is always passed
              rw [hvalue] at hpassing
              cases hpassing
          | some p =>
              simp only [hvalue, Option.map_some, Parser.ability] at hpassing
              split at hpassing
              · next hlast =>
                  cases hpassing
                  simp [hlast]
              · next hlast =>
                  split at hpassing
                  · cases hpassing
                  · cases hpassing
                    simp [hlast]
  | nil =>
      simp only [pass] at h
      simp only [seek, List.map_nil, passEach, Stage.place]
      cases hlast : line.isLastToken with
      | true =>
          rw [locateAfter.eq_def]
          simp [hlast]
      | false =>
          -- the token gives no flag; with fuel or without, nothing is found
          simp only [hlast, Bool.false_eq_true, if_false, lookUp, Option.map_eq_none_iff] at h
          rw [locateAfter.eq_def]
          simp only [hlast, Bool.false_eq_true, if_false]
          split
          · rfl
          · simp only [resolve_map, h, Option.map_none]

/-- The search from a stage ends at the place of a later stage, after which no turn is left. -/
def Ends (group : List (Flag Parser)) (s : Stage) : Prop :=
  ∃ n t, turns (pass group) n s = some t ∧ t.pass group = none ∧
    ∀ m, s.line.rest.length ≤ m → s.seek group m = t.place

theorem Ends.pass (hs : s.Settled) (hpass : s.pass group = some t) (ht : t.Ends group) :
    s.Ends group := by
  obtain ⟨n, u, hturns, hlast, hplace⟩ := ht
  refine ⟨n + 1, u, turns_head hpass hturns, hlast, fun m hm => ?_⟩
  obtain ⟨m', hm', hseek⟩ := seek_pass hs hpass hm
  exact hseek.trans (hplace m' hm')

theorem ends (hgroup : ∀ flag ∈ group, (flag.map Parser.read).Steady) (s : Stage)
    (hs : s.Settled) : s.Ends group :=
  match hpass : s.pass group with
  | none => ⟨0, s, rfl, hpass, fun _ => seek_place hpass⟩
  | some t => (ends hgroup t (settled_pass hgroup hs hpass)).pass hs hpass
termination_by (s.line.rest.length, s.pending.length)
decreasing_by
  have := pass_lt hs hpass
  simp only [Prod.lex_def]
  omega

/-- The search of the completion is made of turns: it ends at the place of the last stage. -/
theorem locate_eq_place (hgroup : ∀ flag ∈ group, (flag.map Parser.read).Steady) (ctx : Context)
    (line : Line) :
    ∃ n s, turns (pass group) n (start ctx line) = some s ∧ s.pass group = none ∧
      locate (group.map (Flag.map Parser.ability)) ctx line = s.place := by
  obtain ⟨n, s, hturns, hlast, hplace⟩ := ends hgroup (start ctx line) (by simp [Settled, start])
  exact ⟨n, s, hturns, hlast, hplace _ (Nat.le_refl _)⟩

/-- The stage at which the completion of some flags ends is one that their reading comes by. -/
def Meets (group : List (Flag Parser)) (ctx ctx' : Context) (line line' : Line) : Prop :=
  ∃ s t : Stage, s.InStep t ∧ locate (Parser.suggestFlags group) ctx' line' = t.place ∧
    ∃ fuel, readGroup (Parser.readFlags group) ctx line = s.finish group fuel

/-- Where the two loops are in step, they meet. -/
theorem meets_of_follows (hgroup : ∀ flag ∈ group, (flag.map Parser.read).Steady)
    {ctx ctx' : Context} {line line' : Line}
    (h : Follows InStep (give group) (pass group) (start ctx line) (start ctx' line')) :
    Meets group ctx ctx' line line' := by
  obtain ⟨n, t, hpassed, -, hplace⟩ := locate_eq_place hgroup ctx' line'
  obtain ⟨s, hgiven, hstep⟩ := h n t hpassed
  obtain ⟨fuel, -, hfinish⟩ := readGroup_eq_finish hgroup hgiven
  refine ⟨s, t, hstep, ?_, fuel, ?_⟩
  · rw [Parser.suggestFlags_eq, hplace]
  · rw [Parser.readFlags_eq, hfinish]

end Stage

end Flag

end CommandLine
