import ReleaseTrain.Proofs.Lookup
import ReleaseTrain.Proofs.OptionWords

namespace ReleaseTrain

open CommandLine

namespace CommandLine

def valueOption (name : OptionName) (value : Option String) : Found :=
  (value.map fun v ↦ (name, some v)).toList

def flagOption (name : OptionName) (set : Bool) : Found := if set then [(name, none)] else []

variable {name n : OptionName} {value v : Option String} {set : Bool}

@[simp] theorem mem_valueOption :
    (n, v) ∈ valueOption name value ↔ n = name ∧ v.isSome = true ∧ value = v := by
  cases value <;> cases v <;> simp [valueOption, eq_comm]

@[simp] theorem mem_flagOption :
    (n, v) ∈ flagOption name set ↔ n = name ∧ v = none ∧ set = true := by
  cases set <;> simp [flagOption]

theorem names_valueOption (name : OptionName) (value : Option String) :
    ((valueOption name value).map Prod.fst).Sublist [name] := by
  cases value <;> simp [valueOption]

theorem names_flagOption (name : OptionName) (set : Bool) :
    ((flagOption name set).map Prod.fst).Sublist [name] := by
  cases set <;> simp [flagOption]

theorem fits_valueOption (h : name.kind = .value) : ∀ o ∈ valueOption name value, FitsKind o := by
  cases value <;> simp [valueOption, FitsKind, h]

theorem fits_flagOption (h : name.kind = .flag) : ∀ o ∈ flagOption name set, FitsKind o := by
  cases set <;> simp [flagOption, FitsKind, h]

namespace Found

variable {found : Found} {text : String}

theorem value?_eq_some_iff (h : (found.map Prod.fst).Nodup) :
    Found.value? found n = some text ↔ (n, some text) ∈ found := by
  unfold Found.value?
  rw [Option.join_eq_some_iff, lookup_eq_some_iff_mem h]

theorem has_iff : Found.has found n = true ↔ ∃ v, (n, v) ∈ found := by
  unfold Found.has
  rw [← Option.ne_none_iff_isSome, Ne, lookup_eq_none_iff_notMem, not_not]
  simp

theorem value?_or_eq_some_iff {outer inner : Found}
    (h : ((outer ++ inner).map Prod.fst).Nodup) :
    (Found.value? inner n).or (Found.value? outer n) = some text ↔
      (n, some text) ∈ outer ++ inner := by
  rw [List.map_append] at h
  obtain ⟨houter, hinner, hapart⟩ := List.nodup_append.1 h
  rw [List.mem_append, ← value?_eq_some_iff houter, ← value?_eq_some_iff hinner,
    Option.or_eq_some_iff]
  constructor
  · rintro (hin | ⟨-, hout⟩)
    · exact .inr hin
    · exact .inl hout
  · rintro (hout | hin)
    · refine .inr ⟨Option.eq_none_iff_forall_not_mem.2 fun other hother ↦ ?_, hout⟩
      have hmem := (value?_eq_some_iff houter).1 hout
      have hmem' := (value?_eq_some_iff hinner).1 hother
      exact hapart n (List.mem_map_of_mem hmem) n (List.mem_map_of_mem hmem') rfl
    · exact .inl hin

end Found

end CommandLine

/-- The options that say what these arguments are. -/
def PackageArguments.options (p : PackageArguments) : Found :=
  valueOption .platform (some p.platform) ++ flagOption .clean p.clean

def ImageArguments.options (i : ImageArguments) : Found :=
  valueOption .tag i.tag ++ (valueOption .registry i.registry ++
    (valueOption .imageName i.imageName ++ (valueOption .imagePlatform i.imagePlatform ++
      (flagOption .noCache i.noCache ++ (flagOption .noPush i.noPush ++
        (flagOption .skipLogin i.skipLoginCheck ++ flagOption .yes i.yes))))))

theorem PackageArguments.names_options (p : PackageArguments) :
    (p.options.map Prod.fst).Sublist packageOptions := by
  simp only [options, List.map_append]
  exact (names_valueOption .platform _).append (names_flagOption .clean _)

theorem ImageArguments.names_options (i : ImageArguments) :
    (i.options.map Prod.fst).Sublist imageOptions := by
  simp only [options, List.map_append]
  exact (names_valueOption .tag _).append ((names_valueOption .registry _).append
    ((names_valueOption .imageName _).append ((names_valueOption .imagePlatform _).append
      ((names_flagOption .noCache _).append ((names_flagOption .noPush _).append
        ((names_flagOption .skipLogin _).append (names_flagOption .yes _)))))))

section Reading

variable {found : Found} {n : OptionName} (hnodup : (found.map Prod.fst).Nodup)
include hnodup

theorem CommandLine.Found.value?_eq {value : Option String}
    (h : ∀ text, (n, some text) ∈ found ↔ value = some text) : Found.value? found n = value := by
  ext text
  rw [Found.value?_eq_some_iff hnodup, h]

omit hnodup in
theorem CommandLine.Found.has_eq {set : Bool} (h : (∃ v, (n, v) ∈ found) ↔ set = true) :
    Found.has found n = set := by
  rw [Bool.eq_iff_iff, Found.has_iff, h]

/-- The registry is the one of the environment if no option gives one. -/
def ImageArguments.within (environment : Option String) (i : ImageArguments) : ImageArguments :=
  { i with registry := i.registry.or environment }

theorem ImageArguments.image_eq {i : ImageArguments}
    (h : ∀ n v, n ∈ imageOptions → ((n, v) ∈ found ↔ (n, v) ∈ i.options))
    (environment : Option String) : Found.image found environment = i.within environment := by
  have hvalue {n : OptionName} {x : Option String} (hn : n ∈ imageOptions)
      (hx : ∀ text, (n, some text) ∈ i.options ↔ x = some text) : Found.value? found n = x :=
    Found.value?_eq hnodup fun text ↦ (h n _ hn).trans (hx text)
  have hset {n : OptionName} {x : Bool} (hn : n ∈ imageOptions)
      (hx : (∃ v, (n, v) ∈ i.options) ↔ x = true) : Found.has found n = x :=
    Found.has_eq ((exists_congr fun v ↦ h n v hn).trans hx)
  have htag : Found.value? found .tag = i.tag := hvalue (by decide) (by simp [options])
  have hregistry : Found.value? found .registry = i.registry :=
    hvalue (by decide) (by simp [options])
  have hname : Found.value? found .imageName = i.imageName :=
    hvalue (by decide) (by simp [options])
  have hplatform : Found.value? found .imagePlatform = i.imagePlatform :=
    hvalue (by decide) (by simp [options])
  have hcache : Found.has found .noCache = i.noCache := hset (by decide) (by simp [options])
  have hpush : Found.has found .noPush = i.noPush := hset (by decide) (by simp [options])
  have hlogin : Found.has found .skipLogin = i.skipLoginCheck :=
    hset (by decide) (by simp [options])
  have hyes : Found.has found .yes = i.yes := hset (by decide) (by simp [options])
  rw [Found.image, htag, hregistry, hname, hplatform, hcache, hpush, hlogin, hyes]
  rfl

omit hnodup in
theorem PackageArguments.package_eq {p : PackageArguments}
    (hplatform : (Found.value? found .platform).getD everyPlatform = p.platform)
    (h : ∀ v, (.clean, v) ∈ found ↔ (.clean, v) ∈ p.options) : Found.package found = p := by
  have hclean : Found.has found .clean = p.clean :=
    Found.has_eq ((exists_congr h).trans (by simp [options]))
  rw [Found.package, hplatform, hclean]

end Reading

namespace Command

def options : Command → Found
  | package p => p.options
  | image i => i.options
  | release p i => p.options ++ i.options

def within (environment : Option String) : Command → Command
  | package p => package p
  | image i => image (i.within environment)
  | release p i => release p (i.within environment)

/-- The same command with these options of the image, if it builds one. -/
def withImage (i : ImageArguments) : Command → Command
  | package p => package p
  | image _ => image i
  | release p _ => release p i

end Command

namespace Arguments

def globals (a : Arguments) : Found :=
  valueOption .config a.config ++ (flagOption .verbose a.verbose ++ flagOption .quiet a.quiet)

def options (a : Arguments) : Found :=
  valueOption .version (some a.version) ++ (a.command.options ++ a.globals)

def within (environment : Option String) (a : Arguments) : Arguments :=
  { a with command := a.command.within environment }

theorem names_globals (a : Arguments) : (a.globals.map Prod.fst).Sublist globalOptions := by
  simp only [globals, List.map_append]
  exact (names_valueOption .config _).append ((names_flagOption .verbose _).append
    ((names_flagOption .quiet _).trans (by decide)))

theorem fits_options (a : Arguments) : ∀ o ∈ a.options, FitsKind o := by
  have hpackage (p : PackageArguments) : ∀ o ∈ p.options, FitsKind o :=
    List.forall_mem_append.2 ⟨fits_valueOption rfl, fits_flagOption rfl⟩
  have himage (i : ImageArguments) : ∀ o ∈ i.options, FitsKind o := by
    simp only [ImageArguments.options, List.forall_mem_append]
    exact ⟨fits_valueOption rfl, fits_valueOption rfl, fits_valueOption rfl, fits_valueOption rfl,
      fits_flagOption rfl, fits_flagOption rfl, fits_flagOption rfl, fits_flagOption rfl⟩
  simp only [options, globals, List.forall_mem_append]
  refine ⟨fits_valueOption rfl, ?_, fits_valueOption rfl, fits_flagOption rfl, fits_flagOption rfl⟩
  cases a.command with
  | package p => exact hpackage p
  | image i => exact himage i
  | release p i => exact List.forall_mem_append.2 ⟨hpackage p, himage i⟩

section Membership

variable {a : Arguments} {n : OptionName} {v : Option String}

theorem mem_options_iff : (n, v) ∈ a.options ↔ n = .version ∧ some a.version = v ∨
    (∃ p, a.command.package? = some p ∧ (n, v) ∈ p.options) ∨
      (∃ i, a.command.image? = some i ∧ (n, v) ∈ i.options) ∨ (n, v) ∈ a.globals := by
  have hversion : (n, v) ∈ valueOption .version (some a.version) ↔
      n = .version ∧ some a.version = v := by
    cases v <;> simp
  simp only [options, List.mem_append, hversion]
  cases a.command <;> simp [Command.options, Command.package?, Command.image?, or_assoc]

theorem mem_packageOptions {p : PackageArguments} (h : (n, v) ∈ p.options) : n ∈ packageOptions :=
  p.names_options.subset (List.mem_map_of_mem h)

theorem mem_imageOptions {i : ImageArguments} (h : (n, v) ∈ i.options) : n ∈ imageOptions :=
  i.names_options.subset (List.mem_map_of_mem h)

theorem mem_globalOptions (h : (n, v) ∈ a.globals) : n ∈ globalOptions :=
  a.names_globals.subset (List.mem_map_of_mem h)

theorem version_mem_options : (.version, v) ∈ a.options ↔ some a.version = v := by
  have hpackage (p : PackageArguments) : (.version, v) ∉ p.options :=
    fun h ↦ absurd (mem_packageOptions h) (by decide)
  have himage (i : ImageArguments) : (.version, v) ∉ i.options :=
    fun h ↦ absurd (mem_imageOptions h) (by decide)
  have hglobal : (.version, v) ∉ a.globals := fun h ↦ absurd (mem_globalOptions h) (by decide)
  simp [mem_options_iff, hpackage, himage, hglobal]

theorem package_mem_options {p : PackageArguments} (hp : a.command.package? = some p)
    (hn : n ∈ packageOptions) : (n, v) ∈ a.options ↔ (n, v) ∈ p.options := by
  have hapart : n ≠ .version ∧ n ∉ imageOptions ∧ n ∉ globalOptions := by
    revert hn
    cases n <;> decide
  have himage (i : ImageArguments) : (n, v) ∉ i.options :=
    fun h ↦ hapart.2.1 (mem_imageOptions h)
  have hglobal : (n, v) ∉ a.globals := fun h ↦ hapart.2.2 (mem_globalOptions h)
  simp [mem_options_iff, hapart.1, hp, himage, hglobal]

theorem image_mem_options {i : ImageArguments} (hi : a.command.image? = some i)
    (hn : n ∈ imageOptions) : (n, v) ∈ a.options ↔ (n, v) ∈ i.options := by
  have hapart : n ≠ .version ∧ n ∉ packageOptions ∧ n ∉ globalOptions := by
    revert hn
    cases n <;> decide
  have hpackage (p : PackageArguments) : (n, v) ∉ p.options :=
    fun h ↦ hapart.2.1 (mem_packageOptions h)
  have hglobal : (n, v) ∉ a.globals := fun h ↦ hapart.2.2 (mem_globalOptions h)
  simp [mem_options_iff, hapart.1, hi, hpackage, hglobal]

theorem global_mem_options (hn : n ∈ globalOptions) :
    (n, v) ∈ a.options ↔ (n, v) ∈ a.globals := by
  have hapart : n ≠ .version ∧ n ∉ packageOptions ∧ n ∉ imageOptions := by
    revert hn
    cases n <;> decide
  have hpackage (p : PackageArguments) : (n, v) ∉ p.options :=
    fun h ↦ hapart.2.1 (mem_packageOptions h)
  have himage (i : ImageArguments) : (n, v) ∉ i.options :=
    fun h ↦ hapart.2.2 (mem_imageOptions h)
  simp [mem_options_iff, hapart.1, hpackage, himage]

end Membership

theorem names_options (a : Arguments) :
    (a.options.map Prod.fst).Sublist (Level.task a.command.task).options := by
  have hversion := names_valueOption .version (some a.version)
  have hglobals := a.names_globals
  simp only [options, List.map_append]
  cases a.command with
  | package p =>
    have h := hversion.append (p.names_options.append hglobals)
    exact h
  | image i =>
    have h := hversion.append (i.names_options.append hglobals)
    exact h
  | release p i =>
    have h := hversion.append ((p.names_options.append i.names_options).append hglobals)
    rw [← List.map_append] at h
    exact h

theorem known_of_mem {a : Arguments} {o : OptionName × Option String} (ho : o ∈ a.options) :
    o.1 ∈ (Level.task a.command.task).options :=
  a.names_options.subset (List.mem_map_of_mem ho)

theorem nodup_options (a : Arguments) : (a.options.map Prod.fst).Nodup := by
  refine List.Nodup.sublist a.names_options ?_
  cases a.command.task <;> decide

/-- The options of the arguments in some order. The platform may be left out where it is the one
that is meant anyway. -/
def Complete (a : Arguments) (found : Found) : Prop :=
  found.Perm a.options ∨ ((.platform, some everyPlatform) :: found).Perm a.options

namespace Complete

variable {a : Arguments} {found : Found} {n : OptionName} {v : Option String}

theorem exists_perm (h : a.Complete found) :
    ∃ left, (left ++ found).Perm a.options ∧
      (left = [] ∨ left = [(.platform, some everyPlatform)]) := by
  obtain h | h := h
  · exact ⟨[], h, .inl rfl⟩
  · exact ⟨[_], h, .inr rfl⟩

theorem mem_options (h : a.Complete found) {o : OptionName × Option String} (ho : o ∈ found) :
    o ∈ a.options := by
  obtain ⟨left, hperm, -⟩ := h.exists_perm
  exact hperm.subset (List.mem_append_right left ho)

theorem nodup (h : a.Complete found) : (found.map Prod.fst).Nodup := by
  obtain ⟨left, hperm, -⟩ := h.exists_perm
  have hall := (hperm.map Prod.fst).nodup_iff.2 a.nodup_options
  exact hall.sublist ((List.sublist_append_right left found).map Prod.fst)

theorem mem_iff (h : a.Complete found) (hn : n ≠ .platform) :
    (n, v) ∈ found ↔ (n, v) ∈ a.options := by
  obtain ⟨left, hperm, rfl | rfl⟩ := h.exists_perm
  · rw [← hperm.mem_iff, List.nil_append]
  · rw [← hperm.mem_iff]
    simp [hn]

theorem platform_eq (h : a.Complete found) {p : PackageArguments}
    (hp : ∀ v, (.platform, v) ∈ a.options ↔ some p.platform = v) :
    (Found.value? found .platform).getD everyPlatform = p.platform := by
  cases hv : Found.value? found .platform with
  | some text =>
    have hmem := h.mem_options ((Found.value?_eq_some_iff h.nodup).1 hv)
    exact (Option.some.inj ((hp _).1 hmem)).symm
  | none =>
    obtain ⟨left, hperm, rfl | rfl⟩ := h.exists_perm
    · have hmem : (.platform, some p.platform) ∈ found := hperm.mem_iff.2 ((hp _).2 rfl)
      rw [(Found.value?_eq_some_iff h.nodup).2 hmem] at hv
      cases hv
    · exact (Option.some.inj ((hp _).1 (hperm.mem_iff.1 List.mem_cons_self))).symm

end Complete

/-- A command line that says what the arguments are. Each option is spelled in one of its ways, and
those that every level knows may stand before the subcommand. -/
structure Writing (a : Arguments) where
  outer : Found
  inner : Found
  before : List String
  behind : List String
  outer_global : ∀ o ∈ outer, o.1 ∈ globalOptions
  complete : a.Complete (outer ++ inner)
  writes_before : Writes outer before
  writes_behind : Writes inner behind

namespace Writing

variable {a : Arguments} (w : a.Writing) {n : OptionName} {v : Option String}

def words : List String := w.before ++ a.command.task.name :: w.behind

theorem nodup_names : ((w.outer ++ w.inner).map Prod.fst).Nodup := w.complete.nodup

theorem nodup_inner : (w.inner.map Prod.fst).Nodup :=
  w.nodup_names.sublist ((List.sublist_append_right _ _).map Prod.fst)

theorem nodup_outer : (w.outer.map Prod.fst).Nodup :=
  w.nodup_names.sublist ((List.sublist_append_left _ _).map Prod.fst)

theorem mem_inner_iff (hn : n ∉ globalOptions) :
    (n, v) ∈ w.inner ↔ (n, v) ∈ w.outer ++ w.inner := by
  rw [List.mem_append]
  exact ⟨.inr, fun h ↦ h.resolve_left fun hout ↦ hn (w.outer_global _ hout)⟩

theorem value?_inner (hn : n ∉ globalOptions) :
    Found.value? w.inner n = Found.value? (w.outer ++ w.inner) n := by
  ext text
  rw [Found.value?_eq_some_iff w.nodup_inner, w.mem_inner_iff hn,
    Found.value?_eq_some_iff w.nodup_names]

theorem version_eq : Found.value? w.inner .version = some a.version := by
  rw [w.value?_inner (by decide)]
  refine Found.value?_eq w.nodup_names fun text ↦ ?_
  rw [w.complete.mem_iff (by decide), version_mem_options]

theorem package_eq {p : PackageArguments} (hp : a.command.package? = some p) :
    Found.package w.inner = p := by
  refine PackageArguments.package_eq ?_ fun v ↦ ?_
  · rw [w.value?_inner (by decide)]
    refine w.complete.platform_eq fun v ↦ ?_
    rw [package_mem_options hp (by decide)]
    cases v <;> simp [PackageArguments.options]
  · rw [w.mem_inner_iff (by decide), w.complete.mem_iff (by decide),
      package_mem_options hp (by decide)]

theorem image_eq {i : ImageArguments} (hi : a.command.image? = some i)
    (environment : Option String) : Found.image w.inner environment = i.within environment := by
  refine ImageArguments.image_eq w.nodup_inner (fun n v hn ↦ ?_) environment
  have hapart : n ∉ globalOptions ∧ n ≠ .platform := by
    revert hn
    cases n <;> decide
  rw [w.mem_inner_iff hapart.1, w.complete.mem_iff hapart.2, image_mem_options hi hn]

theorem has_or_has (hn : n ∈ globalOptions) {set : Bool}
    (h : (∃ v, (n, v) ∈ a.globals) ↔ set = true) :
    (Found.has w.inner n || Found.has w.outer n) = set := by
  have hne : n ≠ .platform := by
    revert hn
    cases n <;> decide
  have hall := fun v ↦ (w.complete.mem_iff (v := v) hne).trans (global_mem_options hn)
  rw [Bool.eq_iff_iff, Bool.or_eq_true, Found.has_iff, Found.has_iff, ← h, ← exists_or]
  refine exists_congr fun v ↦ ?_
  rw [← hall, List.mem_append, or_comm]

theorem combine_eq (environment : Option String) :
    combine w.outer w.inner a.command.task a.version environment = a.within environment := by
  have hconfig : (Found.value? w.inner .config).or (Found.value? w.outer .config) = a.config := by
    ext text
    rw [Found.value?_or_eq_some_iff w.nodup_names, w.complete.mem_iff (by decide),
      global_mem_options (by decide)]
    simp [globals]
  have hverbose : (Found.has w.inner .verbose || Found.has w.outer .verbose) = a.verbose :=
    w.has_or_has (by decide) (by simp [globals])
  have hquiet : (Found.has w.inner .quiet || Found.has w.outer .quiet) = a.quiet :=
    w.has_or_has (by decide) (by simp [globals])
  have hcommand : Found.command w.inner environment a.command.task =
      a.command.within environment := by
    cases hc : a.command with
    | package p => exact congrArg Command.package (w.package_eq (by rw [hc]; rfl))
    | image i => exact congrArg Command.image (w.image_eq (by rw [hc]; rfl) environment)
    | release p i =>
      exact congrArg₂ Command.release (w.package_eq (by rw [hc]; rfl))
        (w.image_eq (by rw [hc]; rfl) environment)
  rw [combine, hconfig, hverbose, hquiet, hcommand]
  rfl

end Writing

theorem mem_globals_of_has {a : Arguments} {found : Found} (h : ∀ o ∈ found, o ∈ a.options)
    {n : OptionName} (hn : n ∈ globalOptions) (hhas : Found.has found n = true) :
    ∃ v, (n, v) ∈ a.globals := by
  obtain ⟨v, hv⟩ := Found.has_iff.1 hhas
  exact ⟨v, (global_mem_options hn).1 (h _ hv)⟩

theorem checkConflicts_eq {a : Arguments} {found : Found} (h : ∀ o ∈ found, o ∈ a.options)
    (hverbosity : ¬(a.verbose = true ∧ a.quiet = true)) : Found.checkConflicts found = .ok () := by
  refine if_neg fun hboth ↦ hverbosity ?_
  obtain ⟨hverbose, hquiet⟩ := Bool.and_eq_true_iff.1 hboth
  have hv := mem_globals_of_has h (by decide) hverbose
  have hq := mem_globals_of_has h (by decide) hquiet
  exact ⟨by simpa [globals] using hv, by simpa [globals] using hq⟩

namespace Writing

variable {a : Arguments} (w : a.Writing) (hconfig : a.config ≠ some "")
  (hverbosity : ¬(a.verbose = true ∧ a.quiet = true))

include hconfig in
theorem path_notMem : (.config, some "") ∉ w.outer ++ w.inner := by
  intro hmem
  have hglobal := (global_mem_options (by decide)).1 (w.complete.mem_options hmem)
  exact hconfig (by simpa [globals] using hglobal)

include hconfig hverbosity

theorem readTask_behind : readTask a.command.task w.behind = .ok (w.inner, a.version) := by
  have hmem : ∀ o ∈ w.inner, o ∈ a.options :=
    fun o ho ↦ w.complete.mem_options (List.mem_append_right _ ho)
  obtain ⟨s, hs, hscan⟩ := scan_level w.writes_behind
    (fun o ho ↦ known_of_mem (hmem o ho)) w.nodup_inner
    (fun h ↦ w.path_notMem hconfig (List.mem_append_right _ h)) []
  rw [List.append_nil, scan] at hscan
  simp only [readTask, hscan, hs.settled, checkConflicts_eq hmem hverbosity, w.version_eq, bind,
    Except.bind, pure, Except.pure]

/-- However the arguments are written, they are read again, with the registry of the environment
where none is given. -/
theorem parse_words (environment : Option String) :
    parse environment w.words = .ok (a.within environment) := by
  have hmem : ∀ o ∈ w.outer, o ∈ a.options :=
    fun o ho ↦ w.complete.mem_options (List.mem_append_left _ ho)
  have hknown : ∀ o ∈ w.outer, o.1 ∈ Level.root.options :=
    fun o ho ↦ List.mem_cons_of_mem _ (w.outer_global o ho)
  obtain ⟨s, hs, hscan⟩ := scan_level w.writes_before hknown w.nodup_outer
    (fun h ↦ w.path_notMem hconfig (List.mem_append_left _ h))
    (a.command.task.name :: w.behind)
  rw [scan_command hs.complete] at hscan
  simp only [parse, words, hscan, w.readTask_behind hconfig hverbosity, hs.settled,
    checkConflicts_eq hmem hverbosity, w.combine_eq, bind, Except.bind, pure, Except.pure]

end Writing

/-- The plain way to write arguments: the subcommand, and then each option by its long name. -/
def Complete.writing {a : Arguments} {found : Found} (h : a.Complete found) : a.Writing where
  outer := []
  inner := found
  before := []
  behind := found.map optionWord
  outer_global := by simp
  complete := h
  writes_before := .nil
  writes_behind := writes_optionWords fun o ho ↦ a.fits_options o (h.mem_options ho)

theorem within_of_given {a : Arguments} {environment : Option String}
    (h : environment = none ∨ ∀ i, a.command.image? = some i → i.registry ≠ none) :
    a.within environment = a := by
  have himage (i : ImageArguments) (hi : environment = none ∨ i.registry ≠ none) :
      i.within environment = i := by
    obtain rfl | hi := hi
    · rw [ImageArguments.within, Option.or_none]
    · obtain ⟨r, hr⟩ := Option.ne_none_iff_exists'.1 hi
      have hkeep : i.registry.or environment = i.registry := by rw [hr, Option.some_or]
      rw [ImageArguments.within, hkeep]
  obtain ⟨version, command, config, verbose, quiet⟩ := a
  cases command with
  | package p => rfl
  | image i => simp only [within, Command.within, himage i (h.imp_right fun h ↦ h i rfl)]
  | release p i => simp only [within, Command.within, himage i (h.imp_right fun h ↦ h i rfl)]

theorem within_of_not_given {a : Arguments} {i : ImageArguments} (hi : a.command.image? = some i)
    (hregistry : i.registry = none) (registry : String) :
    a.within (some registry) =
      { a with command := a.command.withImage { i with registry := some registry } } := by
  obtain ⟨version, command, config, verbose, quiet⟩ := a
  cases command with
  | package p => cases hi
  | image j | release p j =>
    cases hi
    simp only [within, Command.within, ImageArguments.within, hregistry, Option.none_or]
    rfl

/-- Arguments come back from every command line that they are written as: in any order of the
options, with or without a platform that is meant anyway, the options that every level knows before
the subcommand or behind it, values in the word of the option or in one of their own, names long or
short. The environment has a say only in the registry of an image, and only if no option gives it.
-/
theorem command_line_round_trip {a : Arguments} (hconfig : a.config ≠ some "")
    (hverbosity : ¬(a.verbose = true ∧ a.quiet = true)) (environment : Option String) :
    (∀ found, a.Complete found →
        parse environment (a.command.task.name :: found.map optionWord) =
          .ok (a.within environment)) ∧
      (∀ w : a.Writing, parse environment w.words = .ok (a.within environment)) ∧
      ((environment = none ∨ ∀ i, a.command.image? = some i → i.registry ≠ none) →
        a.within environment = a) ∧
      ∀ i registry, a.command.image? = some i → i.registry = none → environment = some registry →
        a.within environment =
          { a with command := a.command.withImage { i with registry := some registry } } := by
  refine ⟨fun found h ↦ ?_, fun w ↦ w.parse_words hconfig hverbosity environment,
    within_of_given, ?_⟩
  · exact h.writing.parse_words hconfig hverbosity environment
  · rintro i registry hi hregistry rfl
    exact within_of_not_given hi hregistry registry

theorem command_line_round_trip_rehearsed :
    let i : ImageArguments := { tag := some "", imageName := some "a=b", noPush := true, yes := true }
    let a : Arguments := ⟨"-1", .release ⟨"osx-x64", true⟩ i, some "release", true, false⟩
    a.config ≠ some "" ∧ ¬(a.verbose = true ∧ a.quiet = true) ∧
      parse (some "ghcr.io/acme") ["--verbose", "--config", "release", "release", "-y", "--tag=",
        "--image=a=b", "-posx-x64", "--no-push", "--version=-1", "--clean"] =
        .ok { a with command := .release ⟨"osx-x64", true⟩ { i with registry := "ghcr.io/acme" } } := by
  intro i a
  have hconfig : a.config ≠ some "" := by decide
  have hverbosity : ¬(a.verbose = true ∧ a.quiet = true) := by decide
  let w : a.Writing := {
    outer := [(.verbose, none), (.config, some "release")]
    inner := [(.yes, none), (.tag, some ""), (.imageName, some "a=b"), (.platform, some "osx-x64"),
      (.noPush, none), (.version, some "-1"), (.clean, none)]
    before := ["--verbose", "--config", "release"]
    behind := ["-y", "--tag=", "--image=a=b", "-posx-x64", "--no-push", "--version=-1", "--clean"]
    outer_global := by decide
    complete := .inl (by decide)
    writes_before := .cons (.flag rfl) (.cons (.apart rfl (by decide)) .nil)
    writes_behind := .cons (.letter rfl rfl) (.cons (.equals "" rfl) (.cons (.equals "a=b" rfl)
      (.cons (.letterJoined rfl rfl (by decide) (by decide)) (.cons (.flag rfl)
        (.cons (.equals "-1" rfl) (.cons (.flag rfl) .nil)))))) }
  obtain ⟨-, hread, -, hregistry⟩ :=
    command_line_round_trip hconfig hverbosity (some "ghcr.io/acme")
  refine ⟨hconfig, hverbosity, ?_⟩
  have hw := hread w
  rw [hregistry i "ghcr.io/acme" rfl rfl rfl] at hw
  exact hw

end Arguments

end ReleaseTrain
