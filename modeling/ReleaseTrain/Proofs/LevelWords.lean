import ReleaseTrain.Proofs.OptionWords

namespace ReleaseTrain.CommandLine

theorem bind_eq_ok {α β : Type} {m : Except UsageError α} {f : α → Except UsageError β} {b : β} :
    (m >>= f) = .ok b ↔ ∃ a, m = .ok a ∧ f a = .ok b := by
  cases m <;> simp [bind, Except.bind]

/-- A word that gives an option whose value is the next word. -/
inductive Awaits (name : OptionName) : String → Prop
  | long : name.kind = .value → Awaits name ("--" ++ name.long)
  | letter {c : Char} : name.kind = .value → name.short? = some c → Awaits name (.ofList ['-', c])

/-- Words that give some options, one after the other. A dash alone may be a value in a word of its
own, and the letters of flags may stand before another option's letter in one word. -/
inductive Gives : Found → List String → Prop
  | nil : Gives [] []
  | spelled {o : OptionName × Option String} {os : Found} {words rest : List String} :
      Spelled o words → Gives os rest → Gives (o :: os) (words ++ rest)
  | dash {name : OptionName} {word : String} {os : Found} {rest : List String} :
      Awaits name word → Gives os rest → Gives ((name, some "-") :: os) (word :: "-" :: rest)
  | joined {name : OptionName} {c d : Char} {cs : List Char} {os : Found} {rest : List String} :
      name.kind = .flag → name.short? = some c → d ≠ '-' →
      Gives os (.ofList ('-' :: d :: cs) :: rest) →
      Gives ((name, none) :: os) (.ofList ('-' :: c :: d :: cs) :: rest)

/-- What gives a value behind the letter of its option. -/
inductive Attached : List Char → List Char → Prop
  | equals (text : List Char) : Attached ('=' :: text) text
  | joined {c : Char} (text : List Char) : c ≠ '=' → Attached (c :: text) (c :: text)

/-- Where the words of a level end: at the subcommand, at the end of all words, or at two dashes
with nothing behind them. -/
inductive Ends (level : Level) : List String → Option (Task × List String) → Prop
  | nil : Ends level [] none
  | dashes : Ends level ["--"] none
  | command (task : Task) (words : List String) :
      level = .root → Ends level (task.name :: words) (some (task, words))

/-- A level takes these options in after those it has found. -/
structure Takes (level : Level) (found os : Found) : Prop where
  known : ∀ o ∈ os, o.1 ∈ level.options
  nodup : ((found ++ os).map Prod.fst).Nodup
  path : (.config, some "") ∉ os

/-- The words are read, up to `next`, as `all` in the end. -/
def Scan.ReadsAs (level : Level) (s : Scan) (words : List String)
    (next : Option (Task × List String)) (all : Found) : Prop :=
  ∃ s', scan level s words = .ok (s', next) ∧ s'.settle = .ok { found := all }

/-- The words in `front` and then `words` give what is missing to `all`. -/
def Continues (level : Level) (found : Found) (front words : List String)
    (next : Option (Task × List String)) (all : Found) : Prop :=
  ∃ os read tail, words = read ++ tail ∧ Gives os (front ++ read) ∧ Takes level found os ∧
    Ends level tail next ∧ all = found ++ os

/-- A word that is taken for no option. -/
def IsPlain (word : String) : Prop := word.toList.head? ≠ some '-' ∨ word = "-"

variable {level : Level} {name : OptionName} {value : Option String} {found all os : Found}
  {o : OptionName × Option String} {s s' t : Scan} {word : String} {front words rest : List String}
  {next : Option (Task × List String)} {c : Char} {cs body : List Char}

theorem Takes.nil (h : (found.map Prod.fst).Nodup) : Takes level found [] :=
  ⟨by simp, by rwa [List.append_nil], by simp⟩

theorem Takes.cons (hknown : o.1 ∈ level.options) (hpath : o ≠ (.config, some ""))
    (h : Takes level (found ++ [o]) os) : Takes level found (o :: os) where
  known := List.forall_mem_cons.2 ⟨hknown, h.known⟩
  nodup := by simpa using h.nodup
  path := List.not_mem_cons_of_ne_of_not_mem hpath.symm h.path

theorem Takes.head (h : Takes level found (o :: os)) :
    o.1 ∈ level.options ∧ o.1 ∉ found.map Prod.fst ∧ o ≠ (.config, some "") := by
  refine ⟨h.known o List.mem_cons_self, fun hmem ↦ ?_, fun heq ↦ h.path (heq ▸ List.mem_cons_self)⟩
  have hnodup := h.nodup
  rw [List.map_append, List.map_cons] at hnodup
  exact (List.nodup_append.1 hnodup).2.2 _ hmem _ List.mem_cons_self rfl

theorem Takes.tail (h : Takes level found (o :: os)) : Takes level (found ++ [o]) os where
  known p hp := h.known p (List.mem_cons_of_mem o hp)
  nodup := by simpa using h.nodup
  path hmem := h.path (List.mem_cons_of_mem o hmem)

section Words

theorem word_cases (word : String) : IsPlain word ∨ word = "--" ∨
    (∃ body, body ≠ [] ∧ word.toList = '-' :: '-' :: body) ∨
      ∃ c cs, c ≠ '-' ∧ word.toList = '-' :: c :: cs := by
  have hword {cs : List Char} (h : word.toList = cs) : word = .ofList cs :=
    h ▸ (String.ofList_toList).symm
  match h : word.toList with
  | [] => exact .inl (.inl (by simp [h]))
  | [c] =>
    by_cases hc : c = '-'
    · exact .inl (.inr (by rw [hword h, hc]))
    · exact .inl (.inl (by simp [h, hc]))
  | c :: d :: cs =>
    by_cases hc : c = '-'
    · by_cases hd : d = '-'
      · subst hc hd
        by_cases hcs : cs = []
        · exact .inr (.inl (by rw [hword h, hcs]))
        · exact .inr (.inr (.inl ⟨cs, hcs, rfl⟩))
      · exact .inr (.inr (.inr ⟨d, cs, hd, by rw [hc]⟩))
    · exact .inl (.inl (by simp [h, hc]))

theorem scan_dashes (words : List String) : scan level s ("--" :: words) = match words with
    | [] => .ok (s, none)
    | word :: _ => .error (strayBehindDashes level word) := by
  have hcommand : isCommandWord level "--" = false := isCommandWord_of_dash rfl
  rw [scan.eq_def]
  dsimp only
  rw [hcommand]
  cases s.awaiting? <;> rfl

theorem scan_plain_value (hs : s.pending = some (name, none)) (hword : IsPlain word) :
    scan level s (word :: words) =
      scan level { s with pending := some (name, some word) } words := by
  obtain hword | rfl := hword
  · exact scan_value hs hword
  · have hawaiting : s.awaiting? = some name := by simp [Scan.awaiting?, hs]
    rw [scan.eq_def]
    dsimp only
    rw [hawaiting]
    rfl

theorem scan_plain (hs : s.awaiting? = none) (hword : IsPlain word)
    (h : scan level s (word :: words) = .ok (s', next)) :
    s' = s ∧ Ends level (word :: words) next := by
  have hstray : isCommandWord level word = false →
      scan level s (word :: words) = .error (stray level) := by
    intro hcommand
    rw [scan.eq_def]
    dsimp only
    rw [hs, hcommand]
    obtain hword | rfl := hword
    · cases hchars : word.toList with
      | nil => rfl
      | cons c cs =>
        have hc : c ≠ '-' := fun hc ↦ hword (by rw [hchars, hc]; rfl)
        simp [hc]
    · rfl
  cases hcommand : isCommandWord level word with
  | false =>
    rw [hstray hcommand] at h
    cases h
  | true =>
    have hroot : level = .root := by
      simp only [isCommandWord, Bool.and_eq_true, decide_eq_true_eq] at hcommand
      exact hcommand.1
    rw [scan.eq_def] at h
    dsimp only at h
    rw [hs, hcommand] at h
    dsimp only at h
    cases htask : Task.ofName? word with
    | none =>
      rw [htask] at h
      cases h
    | some task =>
      rw [htask] at h
      cases h
      have hname : task.name = word := by simpa using List.find?_some htask
      exact ⟨rfl, hname ▸ .command task words hroot⟩

end Words

namespace Scan

theorem record_eq_ok_iff : s.record name value = .ok t ↔
    name ∉ s.found.map Prod.fst ∧ (name, value) ≠ (.config, some "") ∧
      t = { s with found := s.found ++ [(name, value)] } := by
  have hlookup : (s.found.lookup name).isSome = true ↔ name ∈ s.found.map Prod.fst := by
    rw [← Option.ne_none_iff_isSome, Ne, List.lookup_eq_none_iff]
    simp
  unfold record
  split
  next hmem => simp [hlookup.1 hmem]
  next hmem =>
  rw [hlookup] at hmem
  split
  next hpath => simp [hpath]
  next hpath =>
    have hne : (name, value) ≠ (.config, some "") := by simpa using hpath
    simp only [hmem, hne, not_false_eq_true, ne_eq, true_and, Except.ok.injEq]
    exact eq_comm

theorem pending_of_settle (h : s.settle = .ok t) : t.pending = none := by
  unfold settle at h
  split at h
  next hs =>
    cases h
    exact hs
  next => cases h
  next => rw [(record_eq_ok_iff.1 h).2.2]

theorem settle_of_pending (h : s.pending = none) : s.settle = .ok s := by
  unfold settle
  rw [h]

theorem settle_settle (h : s.settle = .ok t) : t.settle = .ok t :=
  settle_of_pending (pending_of_settle h)

theorem give_eq_ok_iff : s.give name = .ok s' ↔ ∃ t, s.settle = .ok t ∧
    (name.kind = .value ∧ s' = { t with pending := some (name, none) } ∨
      name.kind = .flag ∧ t.record name none = .ok s') := by
  unfold give
  rw [bind_eq_ok]
  refine exists_congr fun t ↦ and_congr_right fun _ ↦ ?_
  cases name.kind <;>
    simp [pure, Except.pure, throw, throwThe, MonadExceptOf.throw, eq_comm]

theorem giveValue_eq_ok_iff {text : String} : s.giveValue name text = .ok s' ↔
    ∃ t, s.settle = .ok t ∧ t.record name (some text) = .ok s' := bind_eq_ok

theorem ofLong?_eq_some {text : String} (h : level.ofLong? text = some name) :
    name ∈ level.options ∧ name.long = text :=
  ⟨List.mem_of_find?_eq_some h, by simpa using List.find?_some h⟩

theorem ofShort?_eq_some (h : level.ofShort? c = some name) :
    name ∈ level.options ∧ name.short? = some c :=
  ⟨List.mem_of_find?_eq_some h, by simpa using List.find?_some h⟩

theorem long_eq_ok_iff : s.long level body = .ok s' ↔ ∃ name ∈ level.options,
    body = name.long.toList ∧ s.give name = .ok s' ∨
      ∃ text : String, name.kind = .value ∧ body = name.long.toList ++ '=' :: text.toList ∧
        s.giveValue name text = .ok s' := by
  constructor
  · intro h
    have hsplit : body.takeWhile (· ≠ '=') ++ body.dropWhile (· ≠ '=') = body :=
      List.takeWhile_append_dropWhile
    have hdrop : (body.takeWhile (· ≠ '=') ++ body.dropWhile (· ≠ '=')).drop
        (body.takeWhile (· ≠ '=')).length = body.dropWhile (· ≠ '=') := List.drop_left
    rw [hsplit] at hdrop
    have hhead := List.head?_dropWhile_not (· ≠ '=') body
    unfold long at h
    dsimp only at h
    rw [hdrop] at h
    split at h
    next => cases h
    next name hname hrest =>
      obtain ⟨hlevel, hlong⟩ := ofLong?_eq_some hname
      rw [hrest, List.append_nil] at hsplit
      refine ⟨name, hlevel, .inl ⟨?_, h⟩⟩
      rw [hlong, String.toList_ofList, hsplit]
    next name c value hname hrest =>
      obtain ⟨hlevel, hlong⟩ := ofLong?_eq_some hname
      rw [hrest] at hhead
      obtain rfl : c = '=' := by simpa using hhead
      split at h
      next hkind =>
        refine ⟨name, hlevel, .inr ⟨.ofList value, hkind, ?_, h⟩⟩
        rw [hlong, String.toList_ofList, String.toList_ofList, ← hrest, hsplit]
      next => cases h
  · rintro ⟨name, hlevel, ⟨rfl, h⟩ | ⟨text, hkind, rfl, h⟩⟩
    · rw [long_bare hlevel, h]
    · rw [long_equals hlevel hkind, h]

theorem shorts_eq_ok_iff : s.shorts level (c :: cs) = .ok s' ↔
    ∃ name, level.ofShort? c = some name ∧
      (name.kind = .value ∧ (cs = [] ∧ s.give name = .ok s' ∨
          ∃ text, Attached cs text ∧ s.giveValue name (.ofList text) = .ok s') ∨
        name.kind ≠ .value ∧ ∃ t, s.give name = .ok t ∧ t.shorts level cs = .ok s') := by
  rw [shorts]
  cases hname : level.ofShort? c with
  | none => simp
  | some name =>
  simp only [Option.some.injEq, exists_eq_left']
  split
  next hkind =>
    simp only [hkind, true_and, not_true_eq_false, ne_eq, false_and, or_false]
    split
    next =>
      have hnone (text : List Char) : ¬Attached [] text := by
        rintro ⟨⟩
      simp [hnone]
    next value =>
      have hvalue (text : List Char) : Attached ('=' :: value) text ↔ text = value := by
        constructor
        · rintro (⟨⟩ | ⟨-, hne⟩)
          · rfl
          · exact absurd rfl hne
        · rintro rfl
          exact .equals text
      simp [hvalue]
    next hnil hequals =>
      obtain ⟨d, ds, rfl⟩ := List.exists_cons_of_ne_nil hnil
      have hd : d ≠ '=' := fun hd ↦ hequals ds (by rw [hd])
      have hvalue (text : List Char) : Attached (d :: ds) text ↔ text = d :: ds := by
        constructor
        · rintro (⟨⟩ | ⟨-, hne⟩)
          · exact absurd rfl hd
          · rfl
        · rintro rfl
          exact .joined ds hd
      simp [hvalue]
  next hkind =>
    simp only [hkind, false_and, false_or, ne_eq, not_false_eq_true, true_and]
    exact bind_eq_ok

theorem exists_settle_of_give (h : s.give name = .ok s') :
    ∃ t, s.settle = .ok t ∧ t.give name = .ok s' := by
  obtain ⟨t, ht, h⟩ := give_eq_ok_iff.1 h
  exact ⟨t, ht, give_eq_ok_iff.2 ⟨t, settle_settle ht, h⟩⟩

theorem exists_settle_of_giveValue {text : String} (h : s.giveValue name text = .ok s') :
    ∃ t, s.settle = .ok t ∧ t.giveValue name text = .ok s' := by
  obtain ⟨t, ht, h⟩ := giveValue_eq_ok_iff.1 h
  exact ⟨t, ht, giveValue_eq_ok_iff.2 ⟨t, settle_settle ht, h⟩⟩

theorem exists_settle_of_long (h : s.long level body = .ok s') :
    ∃ t, s.settle = .ok t ∧ t.long level body = .ok s' := by
  obtain ⟨name, hlevel, ⟨hbody, hgive⟩ | ⟨text, hkind, hbody, hgive⟩⟩ := long_eq_ok_iff.1 h
  · obtain ⟨t, ht, hgive⟩ := exists_settle_of_give hgive
    exact ⟨t, ht, long_eq_ok_iff.2 ⟨name, hlevel, .inl ⟨hbody, hgive⟩⟩⟩
  · obtain ⟨t, ht, hgive⟩ := exists_settle_of_giveValue hgive
    exact ⟨t, ht, long_eq_ok_iff.2 ⟨name, hlevel, .inr ⟨text, hkind, hbody, hgive⟩⟩⟩

theorem exists_settle_of_shorts (h : s.shorts level (c :: cs) = .ok s') :
    ∃ t, s.settle = .ok t ∧ t.shorts level (c :: cs) = .ok s' := by
  obtain ⟨name, hname, ⟨hkind, ⟨hcs, hgive⟩ | ⟨text, htext, hgive⟩⟩ | ⟨hkind, u, hgive, hrest⟩⟩ :=
    shorts_eq_ok_iff.1 h
  · obtain ⟨t, ht, hgive⟩ := exists_settle_of_give hgive
    exact ⟨t, ht, shorts_eq_ok_iff.2 ⟨name, hname, .inl ⟨hkind, .inl ⟨hcs, hgive⟩⟩⟩⟩
  · obtain ⟨t, ht, hgive⟩ := exists_settle_of_giveValue hgive
    exact ⟨t, ht, shorts_eq_ok_iff.2 ⟨name, hname, .inl ⟨hkind, .inr ⟨text, htext, hgive⟩⟩⟩⟩
  · obtain ⟨t, ht, hgive⟩ := exists_settle_of_give hgive
    exact ⟨t, ht, shorts_eq_ok_iff.2 ⟨name, hname, .inr ⟨hkind, u, hgive, hrest⟩⟩⟩

end Scan

theorem Awaits.kind (h : Awaits name word) : name.kind = .value := by
  cases h <;> assumption

theorem scan_awaits (hs : s.Holds found) (h : Awaits name word) (hlevel : name ∈ level.options) :
    scan level s (word :: words) =
      scan level { found := found, pending := some (name, none) } words := by
  cases h with
  | long hkind =>
    have hword : ("--" ++ name.long).toList = '-' :: '-' :: name.long.toList :=
      String.toList_append
    rw [scan_long hword (long_ne_nil name), Scan.long_bare hlevel, Scan.give_value hs hkind]
    rfl
  | letter hkind hc =>
    rw [scan_short String.toList_ofList (short?_ne_dash hc), Scan.shorts_bare hlevel hc hkind,
      Scan.give_value hs hkind]
    rfl

theorem scan_ends (hs : s.awaiting? = none) (h : Ends level words next) :
    scan level s words = .ok (s, next) := by
  cases h with
  | nil => rw [scan]
  | dashes => rw [scan_dashes]
  | command task words hroot =>
    subst hroot
    exact scan_command hs task words

theorem readsAs_cons (h : s.ReadsAs level (word :: words) next all) :
    (∃ text, s.awaiting? = some text ∧ IsPlain word ∧
        Scan.ReadsAs level { s with pending := some (text, some word) } words next all) ∨
      (Ends level (word :: words) next ∧ s.settle = .ok { found := all }) ∨
      (∃ body s₁, word.toList = '-' :: '-' :: body ∧ s.long level body = .ok s₁ ∧
        s₁.ReadsAs level words next all) ∨
      ∃ c cs s₁, c ≠ '-' ∧ word.toList = '-' :: c :: cs ∧ s.shorts level (c :: cs) = .ok s₁ ∧
        s₁.ReadsAs level words next all := by
  obtain ⟨s', hscan, hall⟩ := h
  obtain hplain | rfl | ⟨body, hbody, hword⟩ | ⟨c, cs, hc, hword⟩ := word_cases word
  · cases hs : s.awaiting? with
    | none =>
      obtain ⟨rfl, hends⟩ := scan_plain hs hplain hscan
      exact .inr (.inl ⟨hends, hall⟩)
    | some name =>
      have hpending : s.pending = some (name, none) := by
        unfold Scan.awaiting? at hs
        split at hs
        next hp => rw [hp, Option.some.inj hs]
        next => cases hs
      rw [scan_plain_value hpending hplain] at hscan
      exact .inl ⟨name, rfl, hplain, s', hscan, hall⟩
  · rw [scan_dashes] at hscan
    cases words with
    | nil =>
      cases hscan
      exact .inr (.inl ⟨.dashes, hall⟩)
    | cons word words => cases hscan
  · rw [scan_long hword hbody] at hscan
    obtain ⟨s₁, hlong, hscan⟩ := bind_eq_ok.1 hscan
    exact .inr (.inr (.inl ⟨body, s₁, hword, hlong, s', hscan, hall⟩))
  · rw [scan_short hword hc] at hscan
    obtain ⟨s₁, hshorts, hscan⟩ := bind_eq_ok.1 hscan
    exact .inr (.inr (.inr ⟨c, cs, s₁, hc, hword, hshorts, s', hscan, hall⟩))

theorem readsAs_settled (hs : s.awaiting? = none) (h : s.ReadsAs level words next all) :
    ∃ t, s.settle = .ok t ∧ t.ReadsAs level words next all := by
  have hends (hw : Ends level words next) (hall : s.settle = .ok { found := all }) :
      ∃ t, s.settle = .ok t ∧ t.ReadsAs level words next all :=
    ⟨_, hall, _, scan_ends rfl hw, rfl⟩
  cases words with
  | nil =>
    obtain ⟨s', hscan, hall⟩ := h
    cases hscan
    exact hends .nil hall
  | cons word words =>
    obtain ⟨name, hname, -⟩ | ⟨hw, hall⟩ | ⟨body, s₁, hword, hlong, hread⟩ |
      ⟨c, cs, s₁, hc, hword, hshorts, hread⟩ := readsAs_cons h
    · rw [hs] at hname
      cases hname
    · exact hends hw hall
    · obtain ⟨t, ht, hlong'⟩ := Scan.exists_settle_of_long hlong
      obtain ⟨s', hscan, hall⟩ := hread
      have hbody : body ≠ [] := by
        rintro rfl
        obtain ⟨name, -, ⟨hnil, -⟩ | ⟨text, -, hnil, -⟩⟩ := Scan.long_eq_ok_iff.1 hlong
        · exact long_ne_nil name hnil.symm
        · simp at hnil
      refine ⟨t, ht, s', ?_, hall⟩
      rw [scan_long hword hbody, hlong']
      exact hscan
    · obtain ⟨t, ht, hshorts'⟩ := Scan.exists_settle_of_shorts hshorts
      obtain ⟨s', hscan, hall⟩ := hread
      refine ⟨t, ht, s', ?_, hall⟩
      rw [scan_short hword hc, hshorts']
      exact hscan

/-- An option that awaits its value gets the next word, which is taken for no option. -/
theorem readsAs_awaiting (hs : s.pending = some (name, none)) (h : s.ReadsAs level words next all) :
    ∃ text rest, words = text :: rest ∧ IsPlain text ∧
      Scan.ReadsAs level { s with pending := some (name, some text) } rest next all := by
  have hsettle (t : Scan) : s.settle ≠ .ok t := by
    unfold Scan.settle
    rw [hs]
    exact nofun
  cases words with
  | nil =>
    obtain ⟨s', hscan, hall⟩ := h
    cases hscan
    exact absurd hall (hsettle _)
  | cons word words =>
    obtain ⟨other, hother, hplain, hread⟩ | ⟨-, hall⟩ | ⟨body, s₁, -, hlong, -⟩ |
      ⟨c, cs, s₁, -, -, hshorts, -⟩ := readsAs_cons h
    · have hname : name = other := by simpa [Scan.awaiting?, hs] using hother
      exact ⟨word, words, rfl, hplain, hname ▸ hread⟩
    · exact absurd hall (hsettle _)
    · obtain ⟨t, ht, -⟩ := Scan.exists_settle_of_long hlong
      exact absurd ht (hsettle t)
    · obtain ⟨t, ht, -⟩ := Scan.exists_settle_of_shorts hshorts
      exact absurd ht (hsettle t)

namespace Continues

theorem of_ends (hfound : (found.map Prod.fst).Nodup) (h : Ends level words next) :
    Continues level found [] words next found :=
  ⟨[], [], words, rfl, .nil, .nil hfound, h, by rw [List.append_nil]⟩

theorem absorb (h : Continues level found front words next all) :
    Continues level found [] (front ++ words) next all := by
  obtain ⟨os, read, tail, rfl, hgives, htakes, hends, rfl⟩ := h
  exact ⟨os, front ++ read, tail, by rw [List.append_assoc], hgives, htakes, hends, rfl⟩

section Cons

variable (hlevel : o.1 ∈ level.options) (hpath : o ≠ (.config, some ""))
  (h : Continues level (found ++ [o]) front words next all)
include hlevel hpath h

theorem cons_of {front' : List String}
    (hgives : ∀ os read, Gives os (front ++ read) → Gives (o :: os) (front' ++ read)) :
    Continues level found front' words next all := by
  obtain ⟨os, read, tail, rfl, hread, htakes, hends, rfl⟩ := h
  exact ⟨o :: os, read, tail, rfl, hgives os read hread, .cons hlevel hpath htakes, hends,
    by rw [List.append_assoc]; rfl⟩

theorem spelled {spelling : List String} (ho : Spelled o spelling) :
    Continues level found (spelling ++ front) words next all := by
  refine cons_of hlevel hpath h fun os read hread ↦ ?_
  rw [List.append_assoc]
  exact .spelled ho hread

end Cons

end Continues

/-- What is known of the rest of the words, whatever is found before. -/
def RestContinues (level : Level) (words : List String) (next : Option (Task × List String))
    (all : Found) : Prop :=
  ∀ found : Found, (found.map Prod.fst).Nodup →
    Scan.ReadsAs level { found := found } words next all → Continues level found [] words next all

theorem nodup_concat (hfound : (found.map Prod.fst).Nodup) (hnew : name ∉ found.map Prod.fst) :
    ((found ++ [(name, value)]).map Prod.fst).Nodup := by
  rw [List.map_append, List.nodup_append]
  refine ⟨hfound, by simp, fun other hother same hsame heq ↦ hnew ?_⟩
  obtain rfl : same = name := by simpa using hsame
  exact heq ▸ hother

theorem continues_of_record (hfound : (found.map Prod.fst).Nodup)
    (h : Scan.record { found := found } name value = .ok s)
    (hread : s.ReadsAs level words next all) (hrest : RestContinues level words next all) :
    (name, value) ≠ (.config, some "") ∧
      Continues level (found ++ [(name, value)]) [] words next all := by
  obtain ⟨hnew, hpath, rfl⟩ := Scan.record_eq_ok_iff.1 h
  exact ⟨hpath, hrest _ (nodup_concat hfound hnew) hread⟩

theorem continues_of_awaits (hfound : (found.map Prod.fst).Nodup) (hword : Awaits name word)
    (hlevel : name ∈ level.options)
    (h : Scan.ReadsAs level { found := found, pending := some (name, none) } words next all)
    (hrest : ∀ rest, rest.length < words.length → RestContinues level rest next all) :
    Continues level found [word] words next all := by
  obtain ⟨text, rest, rfl, hplain, hread⟩ := readsAs_awaiting rfl h
  obtain ⟨t, hrecord, hread⟩ := readsAs_settled rfl hread
  obtain ⟨hpath, hcontinues⟩ :=
    continues_of_record hfound hrecord hread (hrest rest (by simp))
  have hspelled : Continues level found [word, text] rest next all := by
    obtain htext | rfl := hplain
    · have ho : Spelled (name, some text) [word, text] := by
        cases hword with
        | long hkind => exact .apart hkind htext
        | letter hkind hc => exact .letterApart hkind hc htext
      exact hcontinues.spelled hlevel hpath ho
    · exact hcontinues.cons_of hlevel hpath fun os read hgives ↦ .dash hword hgives
  obtain ⟨os, read, tail, rfl, hgives, htakes, hends, hall⟩ := hspelled
  exact ⟨os, text :: read, tail, rfl, hgives, htakes, hends, hall⟩

section Options

variable (hfound : (found.map Prod.fst).Nodup)
  (hrest : ∀ rest, rest.length ≤ words.length → RestContinues level rest next all)
include hfound hrest

theorem continues_of_long (hword : word.toList = '-' :: '-' :: body)
    (h : Scan.long level { found := found } body = .ok s)
    (hread : s.ReadsAs level words next all) : Continues level found [word] words next all := by
  have hchars : word = .ofList ('-' :: '-' :: body) := hword ▸ (String.ofList_toList).symm
  obtain ⟨name, hlevel, ⟨rfl, hgive⟩ | ⟨text, hkind, rfl, hgive⟩⟩ := Scan.long_eq_ok_iff.1 h
  · have hbare : word = "--" ++ name.long := by
      rw [hchars, ← String.toList_inj, String.toList_ofList, String.toList_append]
      rfl
    subst hbare
    obtain ⟨t, hsettle, ⟨hkind, rfl⟩ | ⟨hkind, hrecord⟩⟩ := Scan.give_eq_ok_iff.1 hgive
    · cases hsettle
      exact continues_of_awaits hfound (.long hkind) hlevel hread fun rest hlt ↦
        hrest rest (Nat.le_of_lt hlt)
    · cases hsettle
      obtain ⟨hpath, hcontinues⟩ :=
        continues_of_record hfound hrecord hread (hrest words (Nat.le_refl _))
      exact hcontinues.spelled hlevel hpath (.flag hkind)
  · have hequals : word = "--" ++ name.long ++ "=" ++ text := by
      rw [hchars, ← String.toList_inj, String.toList_ofList]
      simp [String.toList_append]
    subst hequals
    obtain ⟨t, hsettle, hrecord⟩ := Scan.giveValue_eq_ok_iff.1 hgive
    cases hsettle
    obtain ⟨hpath, hcontinues⟩ :=
      continues_of_record hfound hrecord hread (hrest words (Nat.le_refl _))
    exact hcontinues.spelled hlevel hpath (.equals text hkind)

theorem continues_of_shorts (hc : c ≠ '-')
    (h : Scan.shorts level { found := found } (c :: cs) = .ok s)
    (hread : s.ReadsAs level words next all) :
    Continues level found [.ofList ('-' :: c :: cs)] words next all := by
  induction cs generalizing c found with
  | nil =>
    obtain ⟨name, hname, ⟨hkind, ⟨-, hgive⟩ | ⟨text, ⟨⟩, -⟩⟩ | ⟨hkind, t, hgive, hs⟩⟩ :=
      Scan.shorts_eq_ok_iff.1 h
    · obtain ⟨hlevel, hshort⟩ := Scan.ofShort?_eq_some hname
      obtain ⟨t, hsettle, ⟨-, rfl⟩ | ⟨hflag, -⟩⟩ := Scan.give_eq_ok_iff.1 hgive
      · cases hsettle
        exact continues_of_awaits hfound (.letter hkind hshort) hlevel hread fun rest hlt ↦
          hrest rest (Nat.le_of_lt hlt)
      · simp [hkind] at hflag
    · obtain ⟨hlevel, hshort⟩ := Scan.ofShort?_eq_some hname
      cases hs
      obtain ⟨t, hsettle, ⟨hvalue, -⟩ | ⟨hflag, hrecord⟩⟩ := Scan.give_eq_ok_iff.1 hgive
      · exact absurd hvalue hkind
      · cases hsettle
        obtain ⟨hpath, hcontinues⟩ :=
          continues_of_record hfound hrecord hread (hrest words (Nat.le_refl _))
        exact hcontinues.spelled hlevel hpath (.letter hflag hshort)
  | cons d cs ih =>
    obtain ⟨name, hname, ⟨hkind, ⟨⟨⟩, -⟩ | ⟨text, htext, hgive⟩⟩ | ⟨hkind, t, hgive, hs⟩⟩ :=
      Scan.shorts_eq_ok_iff.1 h
    · obtain ⟨hlevel, hshort⟩ := Scan.ofShort?_eq_some hname
      obtain ⟨t, hsettle, hrecord⟩ := Scan.giveValue_eq_ok_iff.1 hgive
      cases hsettle
      obtain ⟨hpath, hcontinues⟩ :=
        continues_of_record hfound hrecord hread (hrest words (Nat.le_refl _))
      have ho : Spelled (name, some (.ofList text)) [.ofList ('-' :: c :: d :: cs)] := by
        cases htext with
        | equals text => simpa using Spelled.letterEquals (.ofList cs) hkind hshort
        | joined text hd =>
          simpa using @Spelled.letterJoined name c (.ofList (d :: cs)) hkind hshort (by simp)
            (by simpa using hd)
      exact hcontinues.spelled hlevel hpath ho
    · obtain ⟨hlevel, hshort⟩ := Scan.ofShort?_eq_some hname
      obtain ⟨t, hsettle, ⟨hvalue, -⟩ | ⟨hflag, hrecord⟩⟩ := Scan.give_eq_ok_iff.1 hgive
      · exact absurd hvalue hkind
      · cases hsettle
        obtain ⟨hnew, hpath, rfl⟩ := Scan.record_eq_ok_iff.1 hrecord
        have hd : d ≠ '-' := by
          rintro rfl
          obtain ⟨other, hother, -⟩ := Scan.shorts_eq_ok_iff.1 hs
          exact short?_ne_dash (Scan.ofShort?_eq_some hother).2 rfl
        have hcontinues := ih (nodup_concat hfound hnew) hd hs
        exact hcontinues.cons_of hlevel hpath fun os read ↦ .joined hflag hshort hd

end Options

theorem continues_of_readsAs (hfound : (found.map Prod.fst).Nodup)
    (h : Scan.ReadsAs level { found := found } words next all) :
    Continues level found [] words next all := by
  have hlength (n : Nat) : ∀ rest : List String, rest.length ≤ n →
      RestContinues level rest next all := by
    induction n with
    | zero =>
      intro rest hrest found hfound h
      obtain rfl := List.length_eq_zero_iff.1 (Nat.le_zero.1 hrest)
      obtain ⟨s', hscan, hall⟩ := h
      cases hscan
      cases hall
      exact .of_ends hfound .nil
    | succ n ih =>
      intro rest hrest found hfound h
      cases rest with
      | nil => exact ih [] (Nat.zero_le n) found hfound h
      | cons word rest =>
      have hlt : rest.length ≤ n := Nat.le_of_succ_le_succ hrest
      have hless := fun more (hmore : more.length ≤ rest.length) ↦ ih more (Nat.le_trans hmore hlt)
      obtain ⟨name, hname, -⟩ | ⟨hends, hall⟩ | ⟨body, s₁, hword, hlong, hread⟩ |
        ⟨c, cs, s₁, hc, hword, hshorts, hread⟩ := readsAs_cons h
      · cases hname
      · cases hall
        exact .of_ends hfound hends
      · exact (continues_of_long hfound hless hword hlong hread).absorb
      · have hchars : word = .ofList ('-' :: c :: cs) := hword ▸ (String.ofList_toList).symm
        exact hchars ▸ (continues_of_shorts hfound hless hc hshorts hread).absorb
  exact hlength words.length words (Nat.le_refl _) found hfound h

/-- Words that give some options are read as these options, if the level takes them. -/
theorem scan_gives (hs : s.Holds found) (h : Gives os words) (htakes : Takes level found os)
    (rest : List String) :
    ∃ s' : Scan, s'.Holds (found ++ os) ∧ scan level s (words ++ rest) = scan level s' rest := by
  induction h generalizing s found with
  | nil => exact ⟨s, by rwa [List.append_nil], rfl⟩
  | @spelled o os words more ho _ ih =>
    obtain ⟨hlevel, hnew, hpath⟩ := htakes.head
    obtain ⟨s₁, hs₁, hscan₁⟩ := scan_spelled hs ho hlevel hnew hpath (more ++ rest)
    obtain ⟨s₂, hs₂, hscan₂⟩ := ih hs₁ htakes.tail
    refine ⟨s₂, by simpa using hs₂, ?_⟩
    rw [List.append_assoc, hscan₁, hscan₂]
  | @dash name word os more hword _ ih =>
    obtain ⟨hlevel, hnew, hpath⟩ := htakes.head
    obtain ⟨s₂, hs₂, hscan₂⟩ := ih (Scan.holds_pending hnew hpath) htakes.tail
    refine ⟨s₂, by simpa using hs₂, ?_⟩
    rw [List.cons_append, scan_awaits hs hword hlevel, List.cons_append,
      scan_plain_value rfl (.inr rfl), hscan₂]
  | @joined name c d cs os more hkind hc hd _ ih =>
    obtain ⟨hlevel, hnew, -⟩ := htakes.head
    obtain ⟨s₂, hs₂, hscan₂⟩ := ih (Scan.holds_found _) htakes.tail
    have hshorts : s.shorts level (c :: d :: cs) =
        Scan.shorts level { found := found ++ [(name, none)] } (d :: cs) := by
      rw [Scan.shorts, ofShort?_of_short? hlevel hc]
      dsimp only
      rw [if_neg (by simp [hkind]), Scan.give_flag hs hkind hnew]
      rfl
    refine ⟨s₂, by simpa using hs₂, ?_⟩
    rw [List.cons_append, scan_short String.toList_ofList (short?_ne_dash hc), hshorts,
      ← scan_short String.toList_ofList hd]
    exact hscan₂

theorem readsAs_iff (hfound : (found.map Prod.fst).Nodup) :
    Scan.ReadsAs level { found := found } words next all ↔
      Continues level found [] words next all := by
  constructor
  · exact continues_of_readsAs hfound
  · rintro ⟨os, read, tail, rfl, hgives, htakes, hends, rfl⟩
    obtain ⟨s', hs', hscan⟩ := scan_gives (Scan.holds_found found) hgives htakes tail
    exact ⟨s', hscan.trans (scan_ends hs'.complete hends), hs'.settled⟩

end ReleaseTrain.CommandLine
