import CommandLine.Proofs.Flag.Tokens
import CommandLine.Proofs.Route.Values

/-! # Flag groups that share an edge

    A flag group takes the edge of another one if their signatures are equal: the tokens of all
    names and aliases, sorted. So both groups know the same names and aliases, but the signature
    does not say which flag an alias belongs to, nor which flags take a value. Where the groups
    agree on that (`Flag.Agree`), every token means the same to both, and nowhere else
    (`Tree.Reachable.meaning_eq_iff`). Groups that do not agree share edges all the same: aliases
    may be exchanged (`Tree.shares_exchanged_aliases`). -/

namespace CommandLine

namespace Flag

variable {P : Type} {group other : List (Flag P)}

/-- What is seen of a flag that a token gives: its name, and whether it takes a value. -/
def face (flag : Flag P) : String × Bool :=
  (flag.name, flag.value.isSome)

/-- What is seen of the flags that a token gives, in order. -/
def meaning (group : List (Flag P)) (token : String) : Option (List (String × Bool)) :=
  (resolve group token).map (List.map face)

/-- The flags that two groups have under a name, or under an alias, look the same. -/
structure Agree (group other : List (Flag P)) : Prop where
  names : ∀ name x y, withName? group name = some x → withName? other name = some y →
    x.face = y.face
  aliases : ∀ short x y, withAlias? group short = some x → withAlias? other short = some y →
    x.face = y.face

/-! ## What a signature tells -/

/-- The tokens of all names and aliases of a group. -/
def tokens (group : List (Flag P)) : List String :=
  group.flatMap fun flag => ("--" ++ flag.name) :: flag.aliases.map ("-" ++ ·)

/-- Signatures are equal if the tokens are, in whatever order. -/
theorem signature_eq_iff :
    signature group = signature other ↔ (tokens group).Perm (tokens other) := by
  have hperm (group : List (Flag P)) : (signature group).Perm (tokens group) :=
    List.mergeSort_perm _ _
  have hsorted (group : List (Flag P)) :
      (signature group).Pairwise fun a b => decide (a ≤ b) = true :=
    List.pairwise_mergeSort (by simpa using fun a b c => String.le_trans)
      (by simpa using String.le_total) _
  constructor
  · intro hsigned
    exact (hperm group).symm.trans (hsigned ▸ hperm other)
  · intro hsame
    have hboth := (hperm group).trans (hsame.trans (hperm other).symm)
    refine hboth.eq_of_pairwise (fun a b _ _ hab hba => ?_) (hsorted group) (hsorted other)
    exact String.le_antisymm (of_decide_eq_true hab) (of_decide_eq_true hba)

theorem mem_signature {key : String} :
    key ∈ signature group ↔ ∃ flag ∈ group,
      key = "--" ++ flag.name ∨ ∃ short ∈ flag.aliases, key = "-" ++ short := by
  simp only [signature, List.mem_mergeSort, List.mem_flatMap, List.mem_cons, List.mem_map,
    eq_comm (a := key)]

/-- One hyphen and an alias are never two hyphens and a name. -/
theorem alias_ne_name {short : String} (hplain : ∀ name, short.toList ≠ '-' :: name)
    (name : String) : "-" ++ short ≠ "--" ++ name := by
  intro h
  have hlist := congrArg String.toList h
  rw [toList_hyphen, toList_hyphens] at hlist
  exact hplain _ (List.cons.inj hlist).2

theorem hyphen_inj {a b : String} (h : "-" ++ a = "-" ++ b) : a = b := by
  have hlist := congrArg String.toList h
  rw [toList_hyphen, toList_hyphen] at hlist
  exact String.toList_inj.mp (List.cons.inj hlist).2

theorem hyphens_inj {a b : String} (h : "--" ++ a = "--" ++ b) : a = b := by
  have hlist := congrArg String.toList h
  rw [toList_hyphens, toList_hyphens] at hlist
  exact String.toList_inj.mp (List.cons.inj (List.cons.inj hlist).2).2

/-- A signature tells which aliases a group has. -/
theorem alias_mem_signature {short : String} (hplain : ∀ name, short.toList ≠ '-' :: name) :
    "-" ++ short ∈ signature group ↔ (withAlias? group short).isSome = true := by
  rw [mem_signature, withAlias?, List.find?_isSome]
  constructor
  · rintro ⟨flag, hflag, hname | ⟨own, hown, halias⟩⟩
    · exact absurd hname (alias_ne_name hplain flag.name)
    · obtain rfl := hyphen_inj halias
      exact ⟨flag, hflag, List.contains_iff_mem.mpr hown⟩
  · rintro ⟨flag, hflag, hshort⟩
    exact ⟨flag, hflag, Or.inr ⟨short, List.contains_iff_mem.mp hshort, rfl⟩⟩

/-- Where no alias starts with a hyphen, a signature tells which names a group has. -/
theorem name_mem_signature (hgroup : Unhyphened group) (name : String) :
    "--" ++ name ∈ signature group ↔ (withName? group name).isSome = true := by
  rw [mem_signature, withName?, List.find?_isSome]
  constructor
  · rintro ⟨flag, hflag, hname | ⟨short, hshort, halias⟩⟩
    · exact ⟨flag, hflag, beq_iff_eq.mpr (hyphens_inj hname).symm⟩
    · exact absurd halias.symm (alias_ne_name (hgroup flag hflag short hshort) name)
  · rintro ⟨flag, hflag, hname⟩
    exact ⟨flag, hflag, Or.inl (by rw [eq_of_beq hname])⟩

/-! ## What a token means -/

/-- Two look-ups find flags that look the same if both find one or neither does, and if what they
    find looks the same. -/
theorem map_face_eq {x y : Option (Flag P)} (hknown : x.isSome = true ↔ y.isSome = true)
    (hface : ∀ a b, x = some a → y = some b → a.face = b.face) : x.map face = y.map face := by
  cases x with
  | none =>
      cases y with
      | none => rfl
      | some b => cases hknown.mpr rfl
  | some a =>
      cases y with
      | none => cases hknown.mp rfl
      | some b => exact congrArg some (hface a b rfl rfl)

/-- In groups of one signature that agree, an alias finds flags that look the same. -/
theorem Agree.alias_face (h : Agree group other) (hsigned : signature group = signature other)
    (hgroup : Unhyphened group) (hother : Unhyphened other) (short : String) :
    (withAlias? group short).map face = (withAlias? other short).map face := by
  by_cases hplain : ∀ name, short.toList ≠ '-' :: name
  · refine map_face_eq ?_ (h.aliases short)
    rw [← alias_mem_signature hplain, ← alias_mem_signature hplain, hsigned]
  · -- no flag has an alias that starts with a hyphen
    have hnone {group : List (Flag P)} (hgroup : Unhyphened group) :
        withAlias? group short = none := by
      refine Option.eq_none_iff_forall_ne_some.mpr fun flag hfound => hplain ?_
      exact hgroup flag (mem_of_withAlias hfound) short (alias_of_withAlias hfound)
    rw [hnone hgroup, hnone hother]

/-- Whether a flag takes a value is to be seen, so letters find flags that look the same too. -/
theorem map_face_withLetter (group : List (Flag P)) (letter : Char) :
    (withLetter? group letter).map face =
      ((withAlias? group (String.singleton letter)).map face).filter fun seen => !seen.2 := by
  rw [withLetter?, Option.filter_map]
  congr 2
  funext flag
  simp [face]

theorem meaning_name (group : List (Flag P)) (name : String) :
    meaning group ("--" ++ name) = ((withName? group name).map face).map ([·]) := by
  rw [meaning, resolve_name, Option.map_map, Option.map_map]
  rfl

theorem meaning_short (group : List (Flag P)) {short : String}
    (hplain : ∀ name, short.toList ≠ '-' :: name) :
    meaning group ("-" ++ short) =
      match (withAlias? group short).map face with
      | some seen => some [seen]
      | none => short.toList.mapM fun letter => (withLetter? group letter).map face := by
  rw [meaning, resolve_short group hplain]
  cases withAlias? group short with
  | some flag => rfl
  | none => exact mapM_map _ _ _

/-- To groups of one signature every token means the same exactly if they agree. -/
theorem meaning_eq_iff_agree (hsigned : signature group = signature other)
    (hgroup : Unhyphened group) (hother : Unhyphened other) :
    (∀ token, token.toList.head? = some '-' → meaning group token = meaning other token) ↔
      Agree group other := by
  constructor
  · intro hmeaning
    constructor
    · intro name x y hx hy
      have hsame := hmeaning ("--" ++ name) (by rw [toList_hyphens]; rfl)
      rw [meaning_name, meaning_name, hx, hy] at hsame
      exact (List.cons.inj (Option.some.inj hsame)).1
    · intro short x y hx hy
      have hplain := hgroup x (mem_of_withAlias hx) short (alias_of_withAlias hx)
      have hsame := hmeaning ("-" ++ short) (by rw [toList_hyphen]; rfl)
      rw [meaning_short group hplain, meaning_short other hplain, hx, hy] at hsame
      exact (List.cons.inj (Option.some.inj hsame)).1
  · intro hagree token hhyphen
    rcases hyphen_cases hhyphen with ⟨name, rfl⟩ | ⟨short, rfl, hplain⟩
    · rw [meaning_name, meaning_name, map_face_eq ?_ (hagree.names _)]
      rw [← name_mem_signature hgroup, ← name_mem_signature hother, hsigned]
    · -- an alias, or letters each of which is an alias
      have hletter : (fun letter => (withLetter? group letter).map face) =
          fun letter => (withLetter? other letter).map face := by
        funext letter
        rw [map_face_withLetter, map_face_withLetter, hagree.alias_face hsigned hgroup hother]
      rw [meaning_short group hplain, meaning_short other hplain, hletter,
        hagree.alias_face hsigned hgroup hother]

/-- Flags agree with one another if no two of them have a name or an alias in common. -/
theorem Agree.of_subset (hnames : (group.map (·.name)).Nodup)
    (hown : ∀ short, ∀ x ∈ group, ∀ y ∈ group, short ∈ x.aliases → short ∈ y.aliases → x = y)
    (hsubset : other ⊆ group) : Agree group other := by
  constructor
  · intro name x y hx hy
    have hname : x.name = y.name := (name_of_withName hx).trans (name_of_withName hy).symm
    rw [List.inj_on_of_nodup_map hnames (mem_of_withName hx) (hsubset (mem_of_withName hy)) hname]
  · intro short x y hx hy
    rw [hown short x (mem_of_withAlias hx) y (hsubset (mem_of_withAlias hy))
      (alias_of_withAlias hx) (alias_of_withAlias hy)]

end Flag

/-! ## Groups of a tree -/

namespace Node

variable {n : Node} {old g : FlagGroup} {ending : List Entry}

/-- A group of the signature of the group that is there takes its edge. -/
theorem check_shared (h : n.flags = some (old, ending))
    (hsigned : Flag.signature old.flags = Flag.signature g.flags) (rules : Rules) (c : Command)
    (rest : List Component) (name : String) :
    n.check rules c (.flags g :: rest) name = checkEnding rules c ending := by
  simp only [check, flagsSlot, h, if_pos hsigned]

/-- The group that was there stays. -/
theorem insert_shared (h : n.flags = some (old, ending))
    (hsigned : Flag.signature old.flags = Flag.signature g.flags) (rules : Rules) (e : Entry)
    (rest : List Component) (name : String) :
    n.insert rules e (.flags g :: rest) name =
      .ok { n with flags := some (old, settle rules e ending) } := by
  simp only [insert, flagsSlot, h, if_pos hsigned]

end Node

namespace Tree

/-- The group of an edge has the signature of the groups that share it. -/
theorem Reachable.signature_eq {t : Tree} (ht : t.Reachable) {path : List Component}
    {ending : List Entry} {e : Entry} {g own : FlagGroup} (hleads : t.root.Leads path ending)
    (he : e ∈ ending) (hedge : path.getLast? = some (.flags g))
    (hown : e.command.components.getLast? = some (.flags own)) :
    Flag.signature g.flags = Flag.signature own.flags := by
  have hpath := ht.filed.corresponds hleads e he
  rw [List.getLast?_eq_getElem?] at hedge hown
  obtain ⟨c, hc, hcorresponds⟩ := forall₂_getElem? hpath hown
  rw [← hpath.length_eq, hedge] at hc
  cases hc
  exact hcorresponds

/-- A command may end at the edge of a flag group that was there before its own. Every token means
    the same to both groups exactly if the flags that they have under one name or one alias look the
    same. -/
theorem Reachable.meaning_eq_iff {t : Tree} (ht : t.Reachable) {path : List Component}
    {ending : List Entry} {e : Entry} {g own : FlagGroup} (hleads : t.root.Leads path ending)
    (he : e ∈ ending) (hedge : path.getLast? = some (.flags g))
    (hown : e.command.components.getLast? = some (.flags own))
    (hg : Flag.Unhyphened g.flags) (hplain : Flag.Unhyphened own.flags) :
    (∀ token, token.toList.head? = some '-' →
        Flag.meaning g.flags token = Flag.meaning own.flags token) ↔
      Flag.Agree g.flags own.flags :=
  Flag.meaning_eq_iff_agree (ht.signature_eq hleads he hedge hown) hg hplain

end Tree

/-- `--silent`, for which one letter may be given. -/
def Flag.silent (short : String) : Flag Parser where
  name := "silent"
  aliases := [short]

/-- `--force`, for which one letter may be given. -/
def Flag.force (short : String) : Flag Parser where
  name := "force"
  aliases := [short]

/-- `say`, with some flags. -/
def Command.sayWith (flags : List (Flag Parser)) : Command where
  components := [.literal { name := "say" }, .flags { flags }]

namespace Tree

/-- `say --silent --force`, or `-s` and `-f`, in a tree in which commands are replaced. -/
def sayingBriefly : Tree :=
  (apply {} (.insert (.sayWith [.silent "s", .force "f"]))).apply (.replaceCommands true)

/-- What is below `say`. -/
def belowSay (ending : List Entry) : Node :=
  { Node.empty with flags := some ({ flags := [.silent "s", .force "f"] }, ending) }

/-- The tree in which another command of the same signature replaced `say`. -/
def sayingAnew (flags : List (Flag Parser)) : Tree where
  rules := { replaceCommands := true }
  root := { Node.empty with literals := [({ name := "say" }, belowSay [⟨1, .sayWith flags⟩])] }
  nextSerial := 2

theorem sayingBriefly_reachable : sayingBriefly.Reachable :=
  ⟨_, ((History.fresh rfl).edit _).edit _⟩

theorem insert_sayWith {flags : List (Flag Parser)}
    (hvalid : (Command.sayWith flags).validate = .ok ())
    (hsigned : Flag.signature [Flag.silent "s", Flag.force "f"] = Flag.signature flags) :
    sayingBriefly.insert (.sayWith flags) = .ok (sayingAnew flags, ⟨1, .sayWith flags⟩) := by
  have hcheck : Node.check sayingBriefly.rules (.sayWith flags) (Command.sayWith flags).components
      rootName sayingBriefly.root = .ok () :=
    Node.check_shared (n := belowSay [⟨0, .sayWith [.silent "s", .force "f"]⟩]) rfl hsigned _ _ []
      "say"
  have hinsert : Node.insert sayingBriefly.rules ⟨1, .sayWith flags⟩
      (Command.sayWith flags).components rootName sayingBriefly.root =
        .ok (sayingAnew flags).root := by
    show Except.map _ (Node.insert _ _ [.flags { flags }] "say" (belowSay _)) = _
    rw [Node.insert_shared rfl hsigned]
    rfl
  have hserial : sayingBriefly.nextSerial = 1 := rfl
  rw [Tree.insert, hvalid, hcheck, hserial]
  show (Node.insert sayingBriefly.rules ⟨1, .sayWith flags⟩ (Command.sayWith flags).components
      rootName sayingBriefly.root).bind _ = _
  rw [hinsert]
  rfl

/-- The way to the flags of `say`, which are those of the command that was there first. -/
def sayingBrieflyPath : List Component :=
  [.literal { name := "say" }, .flags { flags := [.silent "s", .force "f"] }]

theorem sayingAnew_leads (flags : List (Flag Parser)) :
    (sayingAnew flags).root.Leads sayingBrieflyPath [⟨1, .sayWith flags⟩] :=
  .literal (List.mem_singleton.mpr rfl) (.flags rfl)

/-- A group with the same flags in another order takes the edge, and means the same. -/
theorem meaning_eq_say :
    sayingBriefly.insert (.sayWith [.force "f", .silent "s"]) =
        .ok (sayingAnew [.force "f", .silent "s"], ⟨1, .sayWith [.force "f", .silent "s"]⟩) ∧
      Flag.Unhyphened [Flag.silent "s", Flag.force "f"] ∧
      ∀ token, token.toList.head? = some '-' →
        Flag.meaning [Flag.silent "s", Flag.force "f"] token =
          Flag.meaning [Flag.force "f", Flag.silent "s"] token := by
  have hsigned : Flag.signature [Flag.silent "s", Flag.force "f"] =
      Flag.signature [Flag.force "f", Flag.silent "s"] := by
    rw [Flag.signature_eq_iff]
    decide +kernel
  have hinsert := insert_sayWith (by rfl) hsigned
  obtain ⟨_, hpast⟩ := sayingBriefly_reachable
  have hreachable : (sayingAnew [.force "f", .silent "s"]).Reachable :=
    ⟨_, hpast.of_insert hinsert⟩
  have hplain : Flag.Unhyphened [Flag.silent "s", Flag.force "f"] := by
    simp [Flag.Unhyphened, Flag.silent, Flag.force]
  have hplain' : Flag.Unhyphened [Flag.force "f", Flag.silent "s"] := by
    simp [Flag.Unhyphened, Flag.silent, Flag.force]
  have hagree : Flag.Agree [Flag.silent "s", Flag.force "f"] [Flag.force "f", Flag.silent "s"] := by
    refine Flag.Agree.of_subset (by decide) (fun short x hx y hy => ?_) (by simp)
    simp only [List.mem_cons, List.not_mem_nil, or_false] at hx hy
    rcases hx with rfl | rfl <;> rcases hy with rfl | rfl <;> simp_all [Flag.silent, Flag.force]
  refine ⟨hinsert, hplain, ?_⟩
  exact (hreachable.meaning_eq_iff (sayingAnew_leads _) (List.mem_singleton.mpr rfl) rfl rfl hplain
    hplain').mpr hagree

/-- A group whose aliases are exchanged takes the edge too. `-s` is `--silent` for the group that is
    there, and `--force` for the group of the command that is inserted. -/
theorem shares_exchanged_aliases :
    sayingBriefly.Reachable ∧
      sayingBriefly.root.Leads sayingBrieflyPath [⟨0, .sayWith [.silent "s", .force "f"]⟩] ∧
      sayingBriefly.insert (.sayWith [.silent "f", .force "s"]) =
        .ok (sayingAnew [.silent "f", .force "s"], ⟨1, .sayWith [.silent "f", .force "s"]⟩) ∧
      (sayingAnew [.silent "f", .force "s"]).root.Leads sayingBrieflyPath
        [⟨1, .sayWith [.silent "f", .force "s"]⟩] ∧
      Flag.meaning [Flag.silent "s", Flag.force "f"] "-s" = some [("silent", false)] ∧
      Flag.meaning [Flag.silent "f", Flag.force "s"] "-s" = some [("force", false)] := by
  have hsigned : Flag.signature [Flag.silent "s", Flag.force "f"] =
      Flag.signature [Flag.silent "f", Flag.force "s"] := by
    rw [Flag.signature_eq_iff]
    decide +kernel
  exact ⟨sayingBriefly_reachable, .literal (List.mem_singleton.mpr rfl) (.flags rfl),
    insert_sayWith rfl hsigned, sayingAnew_leads _, rfl, rfl⟩

end Tree

end CommandLine
