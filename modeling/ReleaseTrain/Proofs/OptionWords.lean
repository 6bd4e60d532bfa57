import ReleaseTrain.Arguments

namespace ReleaseTrain.CommandLine

/-- The words that give an option. A value stands behind a `=` or, in a short option's word, right
behind its letter; unless it begins with a dash it may also be a word of its own. -/
inductive Spelled : OptionName × Option String → List String → Prop
  | flag {name : OptionName} : name.kind = .flag → Spelled (name, none) ["--" ++ name.long]
  | letter {name : OptionName} {c : Char} : name.kind = .flag → name.short? = some c →
      Spelled (name, none) [.ofList ['-', c]]
  | equals {name : OptionName} (value : String) : name.kind = .value →
      Spelled (name, some value) ["--" ++ name.long ++ "=" ++ value]
  | apart {name : OptionName} {value : String} : name.kind = .value →
      value.toList.head? ≠ some '-' → Spelled (name, some value) ["--" ++ name.long, value]
  | letterEquals {name : OptionName} {c : Char} (value : String) : name.kind = .value →
      name.short? = some c → Spelled (name, some value) [.ofList ('-' :: c :: '=' :: value.toList)]
  | letterJoined {name : OptionName} {c : Char} {value : String} : name.kind = .value →
      name.short? = some c → value ≠ "" → value.toList.head? ≠ some '=' →
      Spelled (name, some value) [.ofList ('-' :: c :: value.toList)]
  | letterApart {name : OptionName} {c : Char} {value : String} : name.kind = .value →
      name.short? = some c → value.toList.head? ≠ some '-' →
      Spelled (name, some value) [.ofList ['-', c], value]

/-- Words that give some options, one after the other. -/
inductive Writes : Found → List String → Prop
  | nil : Writes [] []
  | cons {o : OptionName × Option String} {os : Found} {words rest : List String} :
      Spelled o words → Writes os rest → Writes (o :: os) (words ++ rest)

/-- The one word that gives an option by its long name. -/
def optionWord : OptionName × Option String → String
  | (name, none) => "--" ++ name.long
  | (name, some value) => "--" ++ name.long ++ "=" ++ value

/-- An option has a value exactly if it takes one. -/
def FitsKind (o : OptionName × Option String) : Prop :=
  o.1.kind = if o.2.isSome then .value else .flag

theorem spelled_optionWord {o : OptionName × Option String} (h : FitsKind o) :
    Spelled o [optionWord o] := by
  obtain ⟨name, value⟩ := o
  cases value with
  | none => exact .flag h
  | some value => exact .equals value h

theorem writes_optionWords {os : Found} (h : ∀ o ∈ os, FitsKind o) :
    Writes os (os.map optionWord) := by
  induction os with
  | nil => exact .nil
  | cons o os ih =>
    have htail := ih fun p hp ↦ h p (List.mem_cons_of_mem o hp)
    exact .cons (spelled_optionWord (h o List.mem_cons_self)) htail

theorem mem_all (task : Task) : task ∈ Task.all := by cases task <;> decide

theorem ofLong?_long {level : Level} {name : OptionName} (h : name ∈ level.options) :
    level.ofLong? name.long = some name := by
  have hroot : ∀ name ∈ Level.root.options, Level.root.ofLong? name.long = some name := by
    decide +kernel
  have htask : ∀ task ∈ Task.all, ∀ name ∈ (Level.task task).options,
      (Level.task task).ofLong? name.long = some name := by decide +kernel
  cases level with
  | root => exact hroot name h
  | task task => exact htask task (mem_all task) name h

theorem ofShort?_of_short? {level : Level} {name : OptionName} {c : Char}
    (h : name ∈ level.options) (hc : name.short? = some c) : level.ofShort? c = some name := by
  have hroot : ∀ name ∈ Level.root.options,
      name.short?.bind Level.root.ofShort? = name.short?.map fun _ ↦ name := by decide +kernel
  have htask : ∀ task ∈ Task.all, ∀ name ∈ (Level.task task).options,
      name.short?.bind (Level.task task).ofShort? = name.short?.map fun _ ↦ name := by
    decide +kernel
  have hlevel : name.short?.bind level.ofShort? = name.short?.map fun _ ↦ name := by
    cases level with
    | root => exact hroot name h
    | task task => exact htask task (mem_all task) name h
  rwa [hc] at hlevel

theorem equals_notMem_long (name : OptionName) : '=' ∉ name.long.toList := by
  cases name <;> decide

theorem short?_ne_dash {name : OptionName} {c : Char} (h : name.short? = some c) : c ≠ '-' := by
  rintro rfl
  cases name <;> cases h

theorem long_ne_nil (name : OptionName) : name.long.toList ≠ [] := by
  cases name <;> decide

theorem isCommandWord_of_dash {level : Level} {word : String}
    (h : word.toList.head? = some '-') : isCommandWord level word = false := by
  have hne (name : String) (hname : name.toList.head? ≠ some '-') : name ≠ word := by
    rintro rfl
    exact hname h
  have htask : Task.ofName? word = none := by
    refine List.find?_eq_none.2 fun task _ ↦ ?_
    rw [decide_eq_true_eq]
    exact hne task.name (by cases task <;> decide)
  have hhelp : word ≠ "help" := (hne "help" (by decide)).symm
  simp [isCommandWord, htask, hhelp]

/-- What has been read comes to these options, also if the last one is still to be taken in. -/
structure Scan.Holds (s : Scan) (found : Found) : Prop where
  settled : s.settle = .ok { found := found }
  complete : s.awaiting? = none

namespace Scan

variable {level : Level} {s : Scan} {found : Found} {name : OptionName} {value : Option String}
  {text : String}

theorem holds_empty : Holds {} [] := ⟨rfl, rfl⟩

theorem holds_found (found : Found) : Holds { found := found } found := ⟨rfl, rfl⟩

theorem record_of_new (hnew : name ∉ found.map Prod.fst)
    (hpath : (name, value) ≠ (.config, some "")) :
    record { found := found } name value = .ok { found := found ++ [(name, value)] } := by
  have hlookup : found.lookup name = none := by
    refine List.lookup_eq_none_iff.2 fun o ho ↦ ?_
    rw [bne_iff_ne]
    rintro rfl
    exact hnew (List.mem_map_of_mem ho)
  have hvalue : ¬(name = .config ∧ value = some "") := fun h ↦ hpath (Prod.ext h.1 h.2)
  simp [record, hlookup, hvalue]

theorem give_flag (hs : s.Holds found) (hkind : name.kind = .flag)
    (hnew : name ∉ found.map Prod.fst) :
    s.give name = .ok { found := found ++ [(name, none)] } := by
  unfold give
  rw [hs.settled, hkind]
  exact record_of_new hnew (by simp)

theorem give_value (hs : s.Holds found) (hkind : name.kind = .value) :
    s.give name = .ok { found := found, pending := some (name, none) } := by
  unfold give
  rw [hs.settled, hkind]
  rfl

theorem giveValue_of_new (hs : s.Holds found) (hnew : name ∉ found.map Prod.fst)
    (hpath : (name, some text) ≠ (.config, some "")) :
    s.giveValue name text = .ok { found := found ++ [(name, some text)] } := by
  unfold giveValue
  rw [hs.settled]
  exact record_of_new hnew hpath

theorem holds_pending (hnew : name ∉ found.map Prod.fst)
    (hpath : (name, some text) ≠ (.config, some "")) :
    Holds { found := found, pending := some (name, some text) } (found ++ [(name, some text)]) :=
  ⟨record_of_new hnew hpath, rfl⟩

theorem takeWhile_long (name : OptionName) (cs : List Char) :
    (name.long.toList ++ cs).takeWhile (· ≠ '=') =
      name.long.toList ++ cs.takeWhile (· ≠ '=') := by
  refine List.takeWhile_append_of_pos fun c hc ↦ ?_
  rw [decide_eq_true_eq]
  rintro rfl
  exact equals_notMem_long name hc

theorem long_bare (hlevel : name ∈ level.options) :
    s.long level name.long.toList = s.give name := by
  have hself : name.long.toList.takeWhile (· ≠ '=') = name.long.toList := by
    simpa using takeWhile_long name []
  unfold long
  dsimp only
  rw [hself, String.ofList_toList, ofLong?_long hlevel, List.drop_length]

theorem long_equals (hlevel : name ∈ level.options) (hkind : name.kind = .value)
    (text : String) :
    s.long level (name.long.toList ++ '=' :: text.toList) = s.giveValue name text := by
  have hhead : (name.long.toList ++ '=' :: text.toList).takeWhile (· ≠ '=') =
      name.long.toList := by
    simpa using takeWhile_long name ('=' :: text.toList)
  unfold long
  dsimp only
  rw [hhead, String.ofList_toList, ofLong?_long hlevel, List.drop_left]
  dsimp only
  rw [if_pos hkind, String.ofList_toList]

section Shorts

variable {c : Char} (hlevel : name ∈ level.options) (hc : name.short? = some c)
include hlevel hc

theorem shorts_flag (hkind : name.kind = .flag) : s.shorts level [c] = s.give name := by
  unfold shorts
  rw [ofShort?_of_short? hlevel hc]
  dsimp only
  rw [if_neg (by simp [hkind])]
  exact bind_pure (s.give name)

theorem shorts_bare (hkind : name.kind = .value) : s.shorts level [c] = s.give name := by
  unfold shorts
  rw [ofShort?_of_short? hlevel hc]
  exact if_pos hkind

theorem shorts_equals (hkind : name.kind = .value) :
    s.shorts level (c :: '=' :: text.toList) = s.giveValue name text := by
  unfold shorts
  rw [ofShort?_of_short? hlevel hc]
  dsimp only
  rw [if_pos hkind]
  change s.giveValue name (.ofList text.toList) = _
  rw [String.ofList_toList]

theorem shorts_joined (hkind : name.kind = .value) (hempty : text ≠ "")
    (htext : text.toList.head? ≠ some '=') :
    s.shorts level (c :: text.toList) = s.giveValue name text := by
  unfold shorts
  rw [ofShort?_of_short? hlevel hc]
  dsimp only
  rw [if_pos hkind]
  split
  · next hnil => exact absurd (String.toList_eq_nil_iff.1 hnil) hempty
  · next hequals => simp [hequals] at htext
  · rw [String.ofList_toList]

end Shorts

end Scan

theorem ofName?_name (task : Task) : Task.ofName? task.name = some task := by
  cases task <;> decide

theorem scan_command {s : Scan} (hs : s.awaiting? = none) (task : Task) (words : List String) :
    scan .root s (task.name :: words) = .ok (s, some (task, words)) := by
  have hcommand : isCommandWord .root task.name = true := by simp [isCommandWord, ofName?_name]
  rw [scan.eq_def]
  dsimp only
  rw [hs, hcommand]
  dsimp only
  rw [ofName?_name]

section Steps

variable {level : Level} {s : Scan} {word : String} {words : List String}

theorem scan_long {body : List Char} (hword : word.toList = '-' :: '-' :: body)
    (hbody : body ≠ []) :
    scan level s (word :: words) = (do scan level (← s.long level body) words) := by
  obtain ⟨c, cs, rfl⟩ := List.exists_cons_of_ne_nil hbody
  have hcommand : isCommandWord level word = false := isCommandWord_of_dash (by rw [hword]; rfl)
  rw [scan.eq_def]
  dsimp only
  rw [hcommand, hword]
  cases s.awaiting? <;> rfl

theorem scan_short {c : Char} {cs : List Char} (hword : word.toList = '-' :: c :: cs)
    (hc : c ≠ '-') :
    scan level s (word :: words) = (do scan level (← s.shorts level (c :: cs)) words) := by
  have hcommand : isCommandWord level word = false := isCommandWord_of_dash (by rw [hword]; rfl)
  rw [scan.eq_def]
  dsimp only
  rw [hcommand, hword]
  cases s.awaiting? <;> simp [hc]

theorem scan_value {name : OptionName} (hs : s.pending = some (name, none))
    (hword : word.toList.head? ≠ some '-') :
    scan level s (word :: words) = scan level { s with pending := some (name, some word) } words := by
  have hawaiting : s.awaiting? = some name := by simp [Scan.awaiting?, hs]
  rw [scan.eq_def]
  dsimp only
  rw [hawaiting]
  cases hchars : word.toList with
  | nil => simp
  | cons c cs =>
    have hc : c ≠ '-' := fun hc ↦ hword (by rw [hchars, hc]; rfl)
    simp [hc]

variable {found os : Found} {o : OptionName × Option String}

/-- However an option is spelled, its words are read as this option and nothing more. -/
theorem scan_spelled (hs : s.Holds found) (ho : Spelled o words) (hlevel : o.1 ∈ level.options)
    (hnew : o.1 ∉ found.map Prod.fst) (hpath : o ≠ (.config, some "")) (rest : List String) :
    ∃ s' : Scan, s'.Holds (found ++ [o]) ∧ scan level s (words ++ rest) = scan level s' rest := by
  cases ho with
  | @flag name hkind =>
    have hword : ("--" ++ name.long).toList = '-' :: '-' :: name.long.toList :=
      String.toList_append
    refine ⟨_, Scan.holds_found _, ?_⟩
    rw [List.singleton_append, scan_long hword (long_ne_nil name), Scan.long_bare hlevel,
      Scan.give_flag hs hkind hnew]
    rfl
  | @letter name c hkind hc =>
    refine ⟨_, Scan.holds_found _, ?_⟩
    rw [List.singleton_append, scan_short (String.toList_ofList) (short?_ne_dash hc),
      Scan.shorts_flag hlevel hc hkind, Scan.give_flag hs hkind hnew]
    rfl
  | @equals name value hkind =>
    have hword : ("--" ++ name.long ++ "=" ++ value).toList =
        '-' :: '-' :: (name.long.toList ++ '=' :: value.toList) := by
      simp [String.toList_append]
    refine ⟨_, Scan.holds_found _, ?_⟩
    rw [List.singleton_append, scan_long hword (by simp), Scan.long_equals hlevel hkind,
      Scan.giveValue_of_new hs hnew hpath]
    rfl
  | @apart name value hkind hvalue =>
    have hword : ("--" ++ name.long).toList = '-' :: '-' :: name.long.toList :=
      String.toList_append
    refine ⟨_, Scan.holds_pending hnew hpath, ?_⟩
    rw [List.cons_append, List.singleton_append, scan_long hword (long_ne_nil name),
      Scan.long_bare hlevel, Scan.give_value hs hkind]
    exact scan_value rfl hvalue
  | @letterEquals name c value hkind hc =>
    refine ⟨_, Scan.holds_found _, ?_⟩
    rw [List.singleton_append, scan_short (String.toList_ofList) (short?_ne_dash hc),
      Scan.shorts_equals hlevel hc hkind, Scan.giveValue_of_new hs hnew hpath]
    rfl
  | @letterJoined name c value hkind hc hempty hvalue =>
    refine ⟨_, Scan.holds_found _, ?_⟩
    rw [List.singleton_append, scan_short (String.toList_ofList) (short?_ne_dash hc),
      Scan.shorts_joined hlevel hc hkind hempty hvalue, Scan.giveValue_of_new hs hnew hpath]
    rfl
  | @letterApart name c value hkind hc hvalue =>
    refine ⟨_, Scan.holds_pending hnew hpath, ?_⟩
    rw [List.cons_append, List.singleton_append, scan_short (String.toList_ofList)
      (short?_ne_dash hc), Scan.shorts_bare hlevel hc hkind, Scan.give_value hs hkind]
    exact scan_value rfl hvalue

theorem scan_writes (hs : s.Holds found) (h : Writes os words)
    (hlevel : ∀ o ∈ os, o.1 ∈ level.options) (hnodup : ((found ++ os).map Prod.fst).Nodup)
    (hpath : (.config, some "") ∉ os) (rest : List String) :
    ∃ s' : Scan, s'.Holds (found ++ os) ∧ scan level s (words ++ rest) = scan level s' rest := by
  induction h generalizing s found with
  | nil => exact ⟨s, by rwa [List.append_nil], rfl⟩
  | @cons o os words more ho _ ih =>
    have hsplit : found ++ o :: os = found ++ [o] ++ os := by simp
    have hnew : o.1 ∉ found.map Prod.fst := by
      rw [List.map_append, List.map_cons] at hnodup
      exact fun hmem ↦ (List.nodup_append.1 hnodup).2.2 _ hmem _ List.mem_cons_self rfl
    obtain ⟨s₁, hs₁, hscan₁⟩ := scan_spelled hs ho (hlevel o List.mem_cons_self) hnew
      (fun heq ↦ hpath (heq ▸ List.mem_cons_self)) (more ++ rest)
    rw [hsplit] at hnodup
    obtain ⟨s₂, hs₂, hscan₂⟩ := ih hs₁ (fun p hp ↦ hlevel p (List.mem_cons_of_mem o hp)) hnodup
      fun hmem ↦ hpath (List.mem_cons_of_mem o hmem)
    refine ⟨s₂, hsplit ▸ hs₂, ?_⟩
    rw [List.append_assoc, hscan₁, hscan₂]

theorem scan_level (h : Writes os words) (hlevel : ∀ o ∈ os, o.1 ∈ level.options)
    (hnodup : (os.map Prod.fst).Nodup) (hpath : (.config, some "") ∉ os) (rest : List String) :
    ∃ s : Scan, s.Holds os ∧ scan level {} (words ++ rest) = scan level s rest :=
  scan_writes Scan.holds_empty h hlevel hnodup hpath rest

end Steps

end ReleaseTrain.CommandLine
