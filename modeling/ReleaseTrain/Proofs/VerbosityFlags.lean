import ReleaseTrain.Proofs.LevelWords
import ReleaseTrain.Proofs.WrittenArguments

namespace ReleaseTrain.CommandLine

section FlagWords

variable {name other : OptionName} {o : OptionName × Option String} {os : Found}
  {text : String} {words : List String} {c : Char} {cs : List Char}

theorem toList_longWord (name : OptionName) :
    ("--" ++ name.long).toList = '-' :: '-' :: name.long.toList := String.toList_append

theorem longWord_ne_short (hc : c ≠ '-') : "--" ++ name.long ≠ .ofList ('-' :: c :: cs) := by
  intro h
  have hchars := toList_longWord name
  rw [h, String.toList_ofList] at hchars
  exact hc (List.cons.inj (List.cons.inj hchars).2).1

theorem longWord_ne_plain (htext : IsPlain text) : "--" ++ name.long ≠ text := by
  rintro rfl
  obtain hhead | hdash := htext
  · rw [toList_longWord] at hhead
    exact hhead rfl
  · have hchars := toList_longWord name
    rw [hdash] at hchars
    cases hchars

theorem longWord_ne_equals : "--" ++ name.long ≠ "--" ++ other.long ++ "=" ++ text := by
  intro h
  have hmem : '=' ∈ ("--" ++ name.long).toList := by
    rw [h]
    simp [String.toList_append]
  rw [toList_longWord] at hmem
  simp only [List.mem_cons, Char.reduceEq, false_or] at hmem
  exact equals_notMem_long name hmem

theorem longWord_eq_iff (hkind : name.kind = .flag) :
    "--" ++ name.long = "--" ++ other.long ↔ name = other := by
  have hlong : name.long = other.long → name = other := by
    revert hkind
    cases name <;> cases other <;> decide
  constructor
  · intro h
    have hchars := toList_longWord name
    rw [h, toList_longWord] at hchars
    simp only [List.cons.injEq, true_and] at hchars
    exact hlong (String.toList_inj.1 hchars).symm
  · rintro rfl
    rfl

theorem ne_of_short? (hshort : name.short? = none) (hc : other.short? = some c) :
    name ≠ other := by
  rintro rfl
  rw [hshort] at hc
  cases hc

variable (hkind : name.kind = .flag) (hshort : name.short? = none)
include hkind

theorem Awaits.longWord_ne (h : Awaits other text) : "--" ++ name.long ≠ text := by
  cases h with
  | long hvalue =>
    intro heq
    rw [← (longWord_eq_iff hkind).1 heq, hkind] at hvalue
    cases hvalue
  | letter _ hc => exact longWord_ne_short (short?_ne_dash hc)

include hshort

theorem Spelled.flag_mem_iff (h : Spelled o words) :
    "--" ++ name.long ∈ words ↔ o = (name, none) := by
  cases h with
  | flag h =>
    rw [List.mem_singleton, longWord_eq_iff hkind, Prod.mk.injEq, eq_self, and_true, eq_comm]
  | letter h hc =>
    rw [List.mem_singleton]
    exact iff_of_false (longWord_ne_short (short?_ne_dash hc))
      fun ho ↦ ne_of_short? hshort hc (Prod.mk.inj ho).1.symm
  | equals value h =>
    rw [List.mem_singleton]
    exact iff_of_false longWord_ne_equals nofun
  | apart h hvalue =>
    rw [List.mem_pair, or_iff_left (longWord_ne_plain (.inl hvalue))]
    exact iff_of_false ((Awaits.long h).longWord_ne hkind) nofun
  | letterEquals value h hc | letterJoined h hc =>
    rw [List.mem_singleton]
    exact iff_of_false (longWord_ne_short (short?_ne_dash hc)) nofun
  | letterApart h hc hvalue =>
    rw [List.mem_pair, or_iff_left (longWord_ne_plain (.inl hvalue))]
    exact iff_of_false ((Awaits.letter h hc).longWord_ne hkind) nofun

theorem Gives.flag_mem_iff (h : Gives os words) :
    "--" ++ name.long ∈ words ↔ (name, none) ∈ os := by
  induction h with
  | nil => simp
  | spelled ho _ ih =>
    rw [List.mem_append, ho.flag_mem_iff hkind hshort, ih, List.mem_cons, eq_comm]
  | dash hword _ ih =>
    simp [hword.longWord_ne hkind, longWord_ne_plain (.inr rfl), ih]
  | @joined n c d cs os rest hflag hc hd _ ih =>
    have hrest : "--" ++ name.long ∈ rest ↔ (name, none) ∈ os := by
      rw [← ih, List.mem_cons, or_iff_right (longWord_ne_short hd)]
    rw [List.mem_cons, or_iff_right (longWord_ne_short (short?_ne_dash hc)), hrest, List.mem_cons,
      or_iff_right fun ho ↦ ne_of_short? hshort hc (Prod.mk.inj ho).1]

end FlagWords

theorem Spelled.fits {o : OptionName × Option String} {words : List String}
    (h : Spelled o words) : FitsKind o := by
  cases h <;> assumption

theorem Gives.fits {os : Found} {words : List String} (h : Gives os words) :
    ∀ o ∈ os, FitsKind o := by
  induction h with
  | nil => simp
  | spelled ho _ ih => exact List.forall_mem_cons.2 ⟨ho.fits, ih⟩
  | dash hword _ ih => exact List.forall_mem_cons.2 ⟨hword.kind, ih⟩
  | joined hkind _ _ _ ih => exact List.forall_mem_cons.2 ⟨hkind, ih⟩

theorem Gives.has_iff {os : Found} {words : List String} (h : Gives os words) {name : OptionName}
    (hkind : name.kind = .flag) (hshort : name.short? = none) :
    Found.has os name = true ↔ "--" ++ name.long ∈ words := by
  rw [h.flag_mem_iff hkind hshort, Found.has_iff]
  constructor
  · rintro ⟨value, hmem⟩
    have hfits : name.kind = if value.isSome then .value else .flag := h.fits _ hmem
    cases value with
    | none => exact hmem
    | some text =>
      rw [hkind] at hfits
      cases hfits
  · exact fun hmem ↦ ⟨none, hmem⟩

/-- A command line that is well formed, whatever its flags say: on both sides of the subcommand
stand options that this level takes, behind it also the version, and two dashes may close it. -/
structure Line where
  task : Task
  outer : Found
  inner : Found
  before : List String
  behind : List String
  closing : List String
  version : String
  gives_before : Gives outer before
  gives_behind : Gives inner behind
  takes_outer : Takes .root [] outer
  takes_inner : Takes (.task task) [] inner
  closing_eq : closing = [] ∨ closing = ["--"]
  version_mem : (.version, some version) ∈ inner

/-- Both flags that contradict each other stand among the words. -/
def Contradict (words : List String) : Prop := "--verbose" ∈ words ∧ "--quiet" ∈ words

instance (words : List String) : Decidable (Contradict words) := inferInstanceAs (Decidable (_ ∧ _))

theorem Gives.checkConflicts {os : Found} {words : List String} (h : Gives os words) :
    Found.checkConflicts os =
      if Contradict words then .error .argumentConflict else .ok () := by
  have hverbose : Found.has os .verbose = true ↔ "--verbose" ∈ words := h.has_iff rfl rfl
  have hquiet : Found.has os .quiet = true ↔ "--quiet" ∈ words := h.has_iff rfl rfl
  have hboth : (Found.has os .verbose && Found.has os .quiet) = true ↔ Contradict words := by
    rw [Bool.and_eq_true, hverbose, hquiet, Contradict]
  exact if_congr hboth rfl rfl

theorem readsAs_empty_iff {level : Level} {words : List String}
    {next : Option (Task × List String)} {all : Found} :
    Scan.ReadsAs level {} words next all ↔ Continues level [] [] words next all :=
  readsAs_iff List.nodup_nil

namespace Line

variable (l : Line) (environment : Option String)

def words : List String := l.before ++ l.task.name :: (l.behind ++ l.closing)

def arguments : Arguments := combine l.outer l.inner l.task l.version environment

theorem ends_closing : Ends (.task l.task) l.closing none := by
  obtain h | h := l.closing_eq
  · exact h ▸ .nil
  · exact h ▸ .dashes

theorem value?_version : Found.value? l.inner .version = some l.version := by
  have hnodup : (l.inner.map Prod.fst).Nodup := by simpa using l.takes_inner.nodup
  exact (Found.value?_eq_some_iff hnodup).2 l.version_mem

theorem readTask_behind : readTask l.task (l.behind ++ l.closing) =
    if Contradict l.behind then .error .argumentConflict else .ok (l.inner, l.version) := by
  have hreads : Scan.ReadsAs (.task l.task) {} (l.behind ++ l.closing) none l.inner :=
    readsAs_empty_iff.2 ⟨l.inner, l.behind, l.closing, rfl, l.gives_behind, l.takes_inner,
      l.ends_closing, rfl⟩
  obtain ⟨s, hscan, hall⟩ := hreads
  simp only [readTask, hscan, hall, l.gives_behind.checkConflicts, l.value?_version, bind,
    Except.bind, pure, Except.pure]
  by_cases hbehind : Contradict l.behind
  · simp only [hbehind, if_true]
  · simp only [hbehind, if_false]

/-- A well-formed command line is accepted unless both flags stand on one side. -/
theorem parse_words : parse environment l.words =
    if Contradict l.before ∨ Contradict l.behind then .error .argumentConflict
    else .ok (l.arguments environment) := by
  have hreads : Scan.ReadsAs .root {} l.words (some (l.task, l.behind ++ l.closing)) l.outer :=
    readsAs_empty_iff.2 ⟨l.outer, l.before, _, rfl, l.gives_before, l.takes_outer,
      .command l.task _ rfl, rfl⟩
  obtain ⟨s, hscan, hall⟩ := hreads
  simp only [parse, hscan, hall, l.readTask_behind, l.gives_before.checkConflicts, bind,
    Except.bind, pure, Except.pure]
  by_cases hbehind : Contradict l.behind
  · simp [hbehind]
  · by_cases hbefore : Contradict l.before
    · simp [hbehind, hbefore]
    · simp only [hbehind, hbefore, or_self, if_false]
      rfl

theorem mem_words_iff (name : OptionName) :
    "--" ++ name.long ∈ l.words ↔ "--" ++ name.long ∈ l.before ∨ "--" ++ name.long ∈ l.behind := by
  have htask : "--" ++ name.long ≠ l.task.name :=
    longWord_ne_plain (.inl (by cases l.task <;> decide))
  have hclosing : "--" ++ name.long ∉ l.closing := by
    obtain h | h := l.closing_eq
    · simp [h]
    · rw [h, List.mem_singleton]
      intro heq
      have hchars := toList_longWord name
      rw [heq] at hchars
      exact long_ne_nil name (List.cons.inj (List.cons.inj hchars).2).2.symm
  simp only [words, List.mem_append, List.mem_cons, htask, hclosing, false_or, or_false]

theorem has_or_has_iff {name : OptionName} (hkind : name.kind = .flag)
    (hshort : name.short? = none) :
    (Found.has l.inner name || Found.has l.outer name) = true ↔ "--" ++ name.long ∈ l.words := by
  rw [Bool.or_eq_true, l.gives_behind.has_iff hkind hshort, l.gives_before.has_iff hkind hshort,
    l.mem_words_iff, or_comm]

end Line

theorem exists_readsAs {level : Level} {words : List String} {s t : Scan}
    {next : Option (Task × List String)} (hscan : scan level {} words = .ok (s, next))
    (hsettle : s.settle = .ok t) : Scan.ReadsAs level {} words next t.found := by
  obtain ⟨found, pending⟩ := t
  obtain rfl : pending = none := Scan.pending_of_settle hsettle
  exact ⟨s, hscan, hsettle⟩

theorem readTask_eq_ok {task : Task} {words : List String} {inner : Found} {version : String}
    (h : readTask task words = .ok (inner, version)) :
    (∃ next, Scan.ReadsAs (.task task) {} words next inner) ∧
      Found.value? inner .version = some version := by
  unfold readTask at h
  obtain ⟨⟨s, next⟩, hscan, h⟩ := bind_eq_ok.1 h
  obtain ⟨t, hsettle, h⟩ := bind_eq_ok.1 h
  obtain ⟨-, -, h⟩ := bind_eq_ok.1 h
  cases hversion : Found.value? t.found .version with
  | none =>
    rw [hversion] at h
    cases h
  | some v =>
    rw [hversion] at h
    cases h
    exact ⟨⟨next, exists_readsAs hscan hsettle⟩, hversion⟩

/-- Every command line that is accepted is well formed. -/
theorem exists_line {environment : Option String} {words : List String} {a : Arguments}
    (h : parse environment words = .ok a) : ∃ l : Line, l.words = words := by
  unfold parse at h
  obtain ⟨⟨s, rest⟩, hscan, h⟩ := bind_eq_ok.1 h
  cases rest with
  | none =>
    obtain ⟨t, -, h⟩ := bind_eq_ok.1 h
    cases h
  | some rest =>
  obtain ⟨task, rest⟩ := rest
  obtain ⟨⟨inner, version⟩, htask, h⟩ := bind_eq_ok.1 h
  obtain ⟨t, hsettle, -⟩ := bind_eq_ok.1 h
  obtain ⟨outer, before, tail, rfl, hbefore, houter, hends, -⟩ :=
    readsAs_empty_iff.1 (exists_readsAs hscan hsettle)
  cases hends
  obtain ⟨⟨next, hreads⟩, hversion⟩ := readTask_eq_ok htask
  obtain ⟨os, behind, closing, rfl, hbehind, hinner, hclosing, hos⟩ := readsAs_empty_iff.1 hreads
  obtain rfl : inner = os := hos
  have hnodup : (inner.map Prod.fst).Nodup := by simpa using hinner.nodup
  refine ⟨⟨task, outer, inner, before, behind, closing, version, hbefore, hbehind, houter, hinner,
    ?_, (Found.value?_eq_some_iff hnodup).1 hversion⟩, rfl⟩
  cases hclosing with
  | nil => exact .inl rfl
  | dashes => exact .inr rfl
  | command _ _ hroot => cases hroot

/-- The two flags exclude each other on each side of the subcommand, and only there. Every command
line that is accepted is well formed. A well-formed one is refused for the contradiction if both
flags stand on one side; else it is accepted with each flag set exactly if its word is there, and so
with both exactly if they stand on different sides. -/
theorem verbosity_exclusion (environment : Option String) (words : List String) :
    (∀ a, parse environment words = .ok a → ∃ l : Line, l.words = words) ∧
      ∀ l : Line, l.words = words →
        (Contradict l.before ∨ Contradict l.behind →
          parse environment words = .error .argumentConflict) ∧
        (¬(Contradict l.before ∨ Contradict l.behind) →
          ∃ a, parse environment words = .ok a ∧
            (a.verbose = true ↔ "--verbose" ∈ words) ∧ (a.quiet = true ↔ "--quiet" ∈ words) ∧
            (a.verbose = true ∧ a.quiet = true ↔
              "--verbose" ∈ l.before ∧ "--quiet" ∈ l.behind ∨
                "--quiet" ∈ l.before ∧ "--verbose" ∈ l.behind)) := by
  refine ⟨fun a ↦ exists_line, ?_⟩
  rintro l rfl
  refine ⟨fun hclash ↦ ?_, fun hclash ↦ ?_⟩
  · rw [l.parse_words, if_pos hclash]
  · have hverbose : (l.arguments environment).verbose = true ↔ "--verbose" ∈ l.words :=
      l.has_or_has_iff rfl rfl
    have hquiet : (l.arguments environment).quiet = true ↔ "--quiet" ∈ l.words :=
      l.has_or_has_iff rfl rfl
    refine ⟨l.arguments environment, ?_, hverbose, hquiet, ?_⟩
    · rw [l.parse_words, if_neg hclash]
    · have hverboseSide : "--verbose" ∈ l.words ↔ "--verbose" ∈ l.before ∨ "--verbose" ∈ l.behind :=
        l.mem_words_iff .verbose
      have hquietSide : "--quiet" ∈ l.words ↔ "--quiet" ∈ l.before ∨ "--quiet" ∈ l.behind :=
        l.mem_words_iff .quiet
      rw [hverbose, hquiet, hverboseSide, hquietSide]
      unfold Contradict at hclash
      tauto

theorem verbosity_exclusion_rehearsed :
    let apart := ["--config", "c", "--quiet", "image", "-yv1.2.3", "--verbose", "--tag", "-", "--"]
    let together := ["package", "--verbose", "--version=1.2.3", "--quiet"]
    (∃ a, parse none apart = .ok a ∧ a.verbose = true ∧ a.quiet = true) ∧
      parse none together = .error .argumentConflict := by
  intro apart together
  let l : Line := {
    task := .image
    outer := [(.config, some "c"), (.quiet, none)]
    inner := [(.yes, none), (.version, some "1.2.3"), (.verbose, none), (.tag, some "-")]
    before := ["--config", "c", "--quiet"]
    behind := ["-yv1.2.3", "--verbose", "--tag", "-"]
    closing := ["--"]
    version := "1.2.3"
    gives_before := .spelled (.apart rfl (by decide)) (.spelled (.flag rfl) .nil)
    gives_behind := by
      refine @Gives.joined .yes 'y' 'v' "1.2.3".toList _ _ rfl rfl (by decide) ?_
      exact .spelled (.letterJoined rfl rfl (by decide) (by decide))
        (.spelled (.flag rfl) (.dash (.long rfl) .nil))
    takes_outer := ⟨by decide, by decide, by decide⟩
    takes_inner := ⟨by decide, by decide, by decide⟩
    closing_eq := .inr rfl
    version_mem := by decide }
  let l' : Line := {
    task := .package
    outer := []
    inner := [(.verbose, none), (.version, some "1.2.3"), (.quiet, none)]
    before := []
    behind := ["--verbose", "--version=1.2.3", "--quiet"]
    closing := []
    version := "1.2.3"
    gives_before := .nil
    gives_behind :=
      .spelled (.flag rfl) (.spelled (.equals "1.2.3" rfl) (.spelled (.flag rfl) .nil))
    takes_outer := ⟨by decide, by decide, by decide⟩
    takes_inner := ⟨by decide, by decide, by decide⟩
    closing_eq := .inl rfl
    version_mem := by decide }
  constructor
  · obtain ⟨-, hline⟩ := verbosity_exclusion none apart
    obtain ⟨a, ha, -, -, hboth⟩ := (hline l rfl).2 (by decide)
    exact ⟨a, ha, hboth.2 (.inr ⟨by decide, by decide⟩)⟩
  · obtain ⟨-, hline⟩ := verbosity_exclusion none together
    exact (hline l' rfl).1 (.inr (by decide))

/-- Not every command line that is accepted leaves out one of the two flags. -/
theorem both_flags_accepted : ∃ a,
    parse none ["--verbose", "package", "-v", "1.2.3", "--quiet"] = .ok a ∧
      a.verbose = true ∧ a.quiet = true :=
  ⟨⟨"1.2.3", .package {}, none, true, true⟩, rfl, rfl, rfl⟩

end ReleaseTrain.CommandLine
