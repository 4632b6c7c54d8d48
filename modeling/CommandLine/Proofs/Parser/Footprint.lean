import CommandLine.Proofs.Line.Boundary
import CommandLine.Proofs.Parser.Onward

/-! # What a parser touches

    A parser that has no part from the surrounding program goes ahead on the line and touches the
    context only where its flags are (`Parser.Within.footprint`): whether it succeeds or fails, the
    text stays the same, the cursor goes no way back, and under every key that is not the name of
    one of its flags there are the same value, the same consumed text and the same count as before.

    The flags of an aggregate are not among them, because an aggregate has a context of its own for
    its parts (`Parser.flagKeys`). The values of flags are read in the caller's context, so that
    the flags of their parsers are. -/

namespace CommandLine

/-! ## Contexts that differ under some keys -/

/-- The same context, apart from what is under some keys. -/
structure Context.SameBut (keys : List String) (before after : Context) : Prop where
  sender : after.sender = before.sender
  notes : after.notes = before.notes
  checker : after.checker = before.checker
  suggesting : after.suggesting = before.suggesting
  values : ∀ key, key ∉ keys → after.value? key = before.value? key
  consumed : ∀ key, key ∉ keys → after.consumed? key = before.consumed? key
  flags : ∀ key, key ∉ keys → after.flags.get? key = before.flags.get? key

/-- An entry under a name that is among some keys leaves those under other keys. -/
theorem Store.get?_put_of_notMem {α : Type} {keys : List String} {name key : String}
    (store : Store α) (value : α) (hname : name ∈ keys) (hkey : key ∉ keys) :
    (store.put name value).get? key = store.get? key := by
  rw [get?_put, if_neg]
  rintro rfl
  exact hkey hname

namespace Context

variable {keys : List String} {name : String}

theorem chains_sameBut (keys : List String) : Chains (SameBut keys) where
  refl _ := ⟨rfl, rfl, rfl, rfl, fun _ _ => rfl, fun _ _ => rfl, fun _ _ => rfl⟩
  trans hab hbc :=
    { sender := hbc.sender.trans hab.sender
      notes := hbc.notes.trans hab.notes
      checker := hbc.checker.trans hab.checker
      suggesting := hbc.suggesting.trans hab.suggesting
      values := fun key hkey => (hbc.values key hkey).trans (hab.values key hkey)
      consumed := fun key hkey => (hbc.consumed key hkey).trans (hab.consumed key hkey)
      flags := fun key hkey => (hbc.flags key hkey).trans (hab.flags key hkey) }

theorem SameBut.refl (ctx : Context) : ctx.SameBut keys ctx :=
  (chains_sameBut keys).refl ctx

theorem sameBut_store (h : name ∈ keys) (ctx : Context) (value : Value) :
    ctx.SameBut keys (ctx.store name value) :=
  { SameBut.refl ctx with values := fun _ hkey => ctx.values.get?_put_of_notMem value h hkey }

theorem sameBut_recordConsumed (h : name ∈ keys) (ctx : Context) (text : String) :
    ctx.SameBut keys (ctx.recordConsumed name text) :=
  { SameBut.refl ctx with consumed := fun _ hkey => ctx.consumed.get?_put_of_notMem text h hkey }

theorem sameBut_markFlag (h : name ∈ keys) (ctx : Context) :
    ctx.SameBut keys (ctx.markFlag name) :=
  { SameBut.refl ctx with flags := fun _ hkey => ctx.flags.get?_put_of_notMem _ h hkey }

end Context

/-! ## The keys of a parser -/

namespace Parser

mutual

/-- The names of the flags that a parser may give in the caller's context. -/
def flagKeys : Parser → List String
  | .cached _ _ inner => inner.flagKeys
  | .map _ inner => inner.flagKeys
  | .flatMap _ inner => inner.flagKeys
  | .firstOf alternatives => flagKeysOfAll alternatives
  | .either primary fallback => primary.flagKeys ++ fallback.flagKeys
  | .flags group => flagKeysOfGroup group
  | _ => []

/-- The names of the flags that some parsers may give. -/
def flagKeysOfAll : List Parser → List String
  | [] => []
  | p :: rest => p.flagKeys ++ flagKeysOfAll rest

/-- The names of the flags of a group, and of those that their values may give. -/
def flagKeysOfGroup : List (Flag Parser) → List String
  | [] => []
  | ⟨name, _, none, _, _, _⟩ :: rest => name :: flagKeysOfGroup rest
  | ⟨name, _, some p, _, _, _⟩ :: rest => name :: (p.flagKeys ++ flagKeysOfGroup rest)

end

variable {keys : List String} {p : Parser}

theorem flagKeys_subset_of_mem {ps : List Parser} (hp : p ∈ ps) :
    p.flagKeys ⊆ flagKeysOfAll ps := by
  induction ps with
  | nil => cases hp
  | cons q ps ih =>
      rcases List.mem_cons.mp hp with rfl | hp
      · exact List.subset_append_left _ _
      · exact List.subset_append_of_subset_right _ (ih hp)

theorem flagKeysOfGroup_cons (flag : Flag Parser) (group : List (Flag Parser)) :
    flagKeysOfGroup (flag :: group) =
      flag.name :: ((flag.value.elim [] flagKeys) ++ flagKeysOfGroup group) := by
  obtain ⟨name, aliases, value, description, permission, repeatable⟩ := flag
  cases value <;> rfl

variable {flag : Flag Parser} {group : List (Flag Parser)}

theorem name_mem_flagKeysOfGroup (h : flag ∈ group) : flag.name ∈ flagKeysOfGroup group := by
  induction group with
  | nil => cases h
  | cons other group ih =>
      rw [flagKeysOfGroup_cons]
      rcases List.mem_cons.mp h with rfl | h
      · exact List.mem_cons_self
      · exact List.mem_cons_of_mem _ (List.mem_append_right _ (ih h))

theorem flagKeys_subset_of_value (h : flag ∈ group) (hp : flag.value = some p) :
    p.flagKeys ⊆ flagKeysOfGroup group := by
  induction group with
  | nil => cases h
  | cons other group ih =>
      rw [flagKeysOfGroup_cons]
      refine List.subset_cons_of_subset _ ?_
      rcases List.mem_cons.mp h with rfl | h
      · rw [hp]
        exact List.subset_append_left _ _
      · exact List.subset_append_of_subset_right _ (ih h)

/-! ## Parsers keep to their keys -/

/-- A flag whose name is among some keys, and whose value touches no others, touches no others. -/
theorem keeps_flag (hname : flag.name ∈ keys)
    (hvalue : ∀ p, flag.value = some p → p.read.Keeps (Context.SameBut keys)) :
    (flag.map read).Keeps (Context.SameBut keys) := by
  have hchains := Context.chains_sameBut keys
  refine ⟨?_, ?_, Flag.forall_value_map hvalue⟩
  · intro ctx
    exact hchains.trans (Context.sameBut_store hname ctx _) (Context.sameBut_markFlag hname _)
  · intro ctx value text
    exact hchains.trans
      (hchains.trans (Context.sameBut_store hname ctx _)
        (Context.sameBut_recordConsumed hname _ _))
      (Context.sameBut_markFlag hname _)

/-- A parser changes a context under its keys only. -/
theorem Within.keeps_flagKeys (h : p.Within .closed) (hkeys : p.flagKeys ⊆ keys) :
    p.read.Keeps (Context.SameBut keys) := by
  have hchains := Context.chains_sameBut keys
  induction h with
  | text mode => exact keeps_readText hchains mode
  | integer | real | truth | uuid | enumeration => exact Reader.keeps_ofToken hchains _ _
  | host ok => exact ok.elim
  | cached _ ih => exact ih hkeys
  | map _ ih => exact ih hkeys
  | flatMap _ _ ih =>
      intro ctx line
      exact Reading.keeps_andThen hchains (ih hkeys ctx line) fun _ ctx _ => hchains.refl ctx
  | firstOf _ ih =>
      refine Alternatives.keeps_readAfter hchains _ ?_ []
      rw [readers_eq]
      exact List.forall_mem_map.mpr fun p hp =>
        ih p hp (List.Subset.trans (flagKeys_subset_of_mem hp) hkeys)
  | either _ _ ihFirst ihSecond =>
      obtain ⟨hfirst, hsecond⟩ := List.append_subset.mp hkeys
      refine Alternatives.keeps_readAfter hchains _ ?_ []
      rw [List.forall_mem_cons]
      exact ⟨ihFirst hfirst, List.forall_mem_singleton.mpr (ihSecond hsecond)⟩
  | aggregate _ _ _ =>
      -- the flags of the parts are given in another context, so no keys are asked for
      exact Part.keeps_readAll hchains _ _
  | flags _ _ ih =>
      intro ctx line
      refine Flag.keeps_readTokens hchains ?_ _ ctx line
      rw [readFlags_eq]
      refine List.forall_mem_map.mpr fun flag hflag => ?_
      exact keeps_flag (hkeys (name_mem_flagKeysOfGroup hflag)) fun p hp =>
        ih flag hflag p hp (List.Subset.trans (flagKeys_subset_of_value hflag hp) hkeys)

/-- A parser without parts of the surrounding program, whether it succeeds or fails, leaves the text
    of the line as it is and the cursor at or behind its place, and the context as it is apart
    from what is under the names of its flags. -/
theorem Within.footprint (h : p.Within .closed) (ctx : Context) (line : Line) :
    line.Ahead (p.read ctx line).line ∧ ctx.SameBut p.flagKeys (p.read ctx line).context := by
  have honward : line.Onward (p.read ctx line).line :=
    h.moves Line.advances_onward (fun _ (hhost : False) => hhost.elim) ctx line
  exact ⟨honward.ahead, h.keeps_flagKeys (List.Subset.refl _) ctx line⟩

/-- How loud a song is to be: silent, which an aggregate reads from a flag, or of a volume. -/
def loudness : Parser :=
  .firstOf
    [.aggregate [⟨"silence", .flags [{ name := "quiet" }], none⟩]
      fun ctx => .ok (.plain (.truth (ctx.hasFlag "quiet"))),
     .flags [{ name := "volume", value := some (.integer 0 9) }]]

theorem closed_loudness : loudness.Within .closed := by
  refine .firstOf fun p hp => ?_
  simp only [List.mem_cons, List.not_mem_nil, or_false] at hp
  rcases hp with rfl | rfl
  · refine .aggregate trivial fun part hpart => ?_
    rw [List.mem_singleton.mp hpart]
    refine .flags (fun _ _ => trivial) fun flag hflag p hp => ?_
    rw [List.mem_singleton.mp hflag] at hp
    cases hp
  · refine .flags (fun _ _ => trivial) fun flag hflag p hp => ?_
    rw [List.mem_singleton.mp hflag] at hp
    cases hp
    exact .integer 0 9

/-- What is read of a song that is to be silent. -/
def quietSong : Reading Value :=
  loudness.read { sender := ⟨"Steve", "player", 0, []⟩ } (.ofString "--quiet ")

/-- A song is known to be silent, and the caller does not learn from which flag. -/
theorem footprint_loudness :
    loudness.Within .closed ∧ loudness.flagKeys = ["volume"] ∧ quietSong.result.isOk = true ∧
      quietSong.line.cursor ≤ 8 ∧ quietSong.context.value? "quiet" = none := by
  have hok : quietSong.result.isOk = true := by decide +kernel
  obtain ⟨hahead, hsame⟩ := closed_loudness.footprint _ (.ofString "--quiet ")
  exact ⟨closed_loudness, rfl, hok, hahead.stop, hsame.values "quiet" (by decide)⟩

end Parser

end CommandLine
