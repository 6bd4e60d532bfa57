import Mathlib.Data.List.Forall2
import ReleaseTrain.Proofs.FileEffects
import ReleaseTrain.Proofs.JsonSkipping
import ReleaseTrain.Proofs.RegistryHost

namespace ReleaseTrain

open Text (Bytes)
open Json Reader

def Json.Value.names : Value → List String
  | .object members => members.map (·.1)
  | _ => []

namespace CredentialFile

def isTable (name : String) : Bool := name = "auths" || name = "credHelpers"

def loginKeys (members : List (String × Value)) : List String :=
  members.flatMap fun m ↦ if isTable m.1 then m.2.names else []

/-- A table is an object. Its values may be anything in `auths`, only not too deep or too large to
be read, and are texts in `credHelpers`. -/
structure Fit (m : String × Value) : Prop where
  auths : m.1 = "auths" → (∃ entries, m.2 = .object entries) ∧ m.2.Within (maxDepth - 2)
  helpers : m.1 = "credHelpers" →
    ∃ entries, m.2 = .object entries ∧ ∀ e ∈ entries, ∃ name, e.2 = .string name

/-- What a file's object lists: nothing twice, and whatever it likes beside the two tables. -/
structure Listing (members : List (String × Value)) : Prop where
  nodup : (members.map (·.1)).Nodup
  fit : ∀ m ∈ members, Fit m

def Member.keys : Member → List String
  | .auths entries => entries.map (·.1)
  | .helpers entries => entries.map (·.1)
  | .other _ => []

theorem mem_keys_ofMembers {key : String} {ms : List Member} :
    key ∈ (ofMembers ms).keys ↔ ∃ m ∈ ms, key ∈ m.keys := by
  unfold keys ofMembers
  rw [List.mem_append, List.map_flatMap, List.map_flatMap, List.mem_flatMap, List.mem_flatMap]
  constructor
  · rintro (⟨m, hm, hkey⟩ | ⟨m, hm, hkey⟩) <;> refine ⟨m, hm, ?_⟩ <;> cases m <;>
      first | exact hkey | cases hkey
  · rintro ⟨m, hm, hkey⟩
    cases m with
    | auths entries => exact .inl ⟨_, hm, hkey⟩
    | helpers entries => exact .inr ⟨_, hm, hkey⟩
    | other name => cases hkey

structure ReadAs (m : String × Value) (m' : Member) : Prop where
  isAuths : m'.isAuths = true → m.1 = "auths"
  isHelpers : m'.isHelpers = true → m.1 = "credHelpers"
  keys : m'.keys = if isTable m.1 then m.2.names else []

theorem mem_loginKeys_iff {ms : List (String × Value)} {ms' : List Member}
    (h : List.Forall₂ ReadAs ms ms') (key : String) :
    key ∈ loginKeys ms ↔ key ∈ (ofMembers ms').keys := by
  rw [mem_keys_ofMembers]
  unfold loginKeys
  induction h with
  | nil => simp
  | cons hm _ ih =>
    rw [List.flatMap_cons, List.mem_append, ih, ← hm.keys]
    simp

theorem any_eq_false {ms : List (String × Value)} {ms' : List Member} {p : Member → Bool}
    {name : String} (h : List.Forall₂ ReadAs ms ms') (hname : name ∉ ms.map (·.1))
    (hp : ∀ {m m'}, ReadAs m m' → p m' = true → m.1 = name) : ms'.any p = false := by
  induction h with
  | nil => rfl
  | @cons m m' ms ms' hm _ ih =>
    rw [List.map_cons, List.mem_cons, not_or] at hname
    rw [List.any_cons, ih hname.2, Bool.or_false, Bool.eq_false_iff]
    exact fun h ↦ hname.1 (hp hm h).symm

section Reading

variable {α : Type} {ws bs inner : Bytes} {steps : Nat} {first : Bool}

theorem reads_table {entries : Reader α} {a : α} (hws : Blanks ws)
    (h : Reads (Begins (byte '\x7d')) entries inner a) :
    Reads Anything (table steps entries) (ws ++ (byte '\x7b' :: inner ++ [byte '\x7d'])) a := by
  refine .beginning (b := byte '\x7b') hws (by decide) ?_
  rw [if_pos rfl]
  exact .afterSkip (h.enclosed reads_endObject.anywhere fun _ _ ↦ rfl)

theorem reads_helperName {name : String} {key : Bytes} (hws : Blanks ws)
    (h : SpellsString name.toList key) (hsteps : key.length ≤ steps) :
    Reads Anything (helperName steps) (ws ++ byte '"' :: key) name := by
  refine .beginning (b := byte '"') hws (by decide) ?_
  rw [if_pos rfl]
  exact .afterSkip (reads_string h hsteps).anywhere

theorem reads_helperEntries {entries : List (String × Value)}
    (h : Spells (.members first entries) bs)
    (hnames : ∀ e ∈ entries, ∃ name, e.2 = .string name) (hsteps : bs.length < steps) :
    ∃ names, names.map (·.1) = entries.map (·.1) ∧
      Reads (Begins (byte '\x7d')) (helperEntries steps first) bs names := by
  induction entries generalizing first bs steps with
  | nil =>
    cases h with | noMember hws => _
    obtain ⟨steps, rfl⟩ := Nat.exists_eq_add_one.2 (Nat.zero_lt_of_lt hsteps)
    exact ⟨[], rfl, (reads_noMoreMembers hws).finish (.pure [])⟩
  | cons entry entries ih =>
    cases h with | @member _ name v _ lead key ws ws' vs rest hlead hname hws hws' h h' => _
    obtain ⟨steps, rfl⟩ := Nat.exists_eq_add_one.2 (Nat.zero_lt_of_lt hsteps)
    obtain ⟨text, rfl⟩ : ∃ text, v = .string text := hnames _ List.mem_cons_self
    cases h with | @string _ chars htext => _
    simp only [List.length_append, List.length_cons] at hsteps
    obtain ⟨names, hkeys, hread⟩ :=
      ih h' (fun e he ↦ hnames e (List.mem_cons_of_mem _ he)) (show rest.length < steps by omega)
    refine ⟨(name, text) :: names, congrArg (name :: ·) hkeys, ?_⟩
    rw [regroup_member, helperEntries]
    refine (reads_moreMembers hlead).bind ?_ fun _ _ ↦ rfl
    rw [if_pos rfl]
    refine (reads_key hname (by omega)).andThen ((reads_colon hws).andThen ?_)
    exact (reads_helperName hws' htext (by omega)).andThen (hread.finish (.pure _))

theorem reads_readAuths {v : Value} (hws : Blanks ws) (h : Spells (.value v) bs)
    (hfit : Fit ("auths", v)) (hsteps : bs.length ≤ steps) :
    ∃ entries, ReadAs ("auths", v) (.auths entries) ∧
      Reads Anything (readAuths steps) (ws ++ bs) entries := by
  obtain ⟨⟨entries, rfl⟩, hwithin⟩ := hfit.auths rfl
  cases hwithin with | @object d _ hwithin => _
  cases h with | object h => _
  simp only [List.cons_append, List.length_cons, List.length_append, List.length_nil] at hsteps
  refine ⟨entries, ⟨fun _ ↦ rfl, Bool.noConfusion, rfl⟩, ?_⟩
  exact reads_table hws (isRead_of_spells h steps _ (by omega) hwithin)

theorem reads_readHelpers {v : Value} (hws : Blanks ws) (h : Spells (.value v) bs)
    (hfit : Fit ("credHelpers", v)) (hsteps : bs.length ≤ steps) :
    ∃ names, ReadAs ("credHelpers", v) (.helpers names) ∧
      Reads Anything (readHelpers steps) (ws ++ bs) names := by
  obtain ⟨entries, rfl, hnames⟩ := hfit.helpers rfl
  cases h with | object h => _
  simp only [List.cons_append, List.length_cons, List.length_append, List.length_nil] at hsteps
  obtain ⟨names, hkeys, hread⟩ := reads_helperEntries h hnames (show _ < steps by omega)
  exact ⟨names, ⟨Bool.noConfusion, fun _ ↦ rfl, hkeys⟩, reads_table hws hread⟩

theorem reads_fileMember {name : String} {v : Value} {seen ms : List (String × Value)}
    {read : List Member} {lead key ws' vs rest : Bytes} (hlead : Lead first lead)
    (hname : SpellsString name.toList key) (hws : Blanks ws) (hws' : Blanks ws')
    (h : Spells (.value v) vs) (h' : Spells (.members false ms) rest) (hfit : Fit (name, v))
    (hread : List.Forall₂ ReadAs seen read) (hnew : name ∉ seen.map (·.1))
    (hkey : key.length ≤ steps) (hvs : vs.length ≤ steps) :
    ∃ m', ReadAs (name, v) m' ∧ ∀ ms',
      Reads (Begins (byte '\x7d')) (fileMembers steps false (read ++ [m'])) rest ms' →
        Reads (Begins (byte '\x7d')) (fileMembers (steps + 1) first read)
          (lead ++ byte '"' :: key ++ (ws ++ byte ':' :: ws') ++ vs ++ rest) ms' := by
  rw [regroup_member, fileMembers]
  by_cases hauths : name = "auths"
  · subst hauths
    obtain ⟨entries, hm, hentries⟩ := reads_readAuths hws' h hfit hvs
    refine ⟨_, hm, fun ms' hnext ↦ (reads_moreMembers hlead).bind ?_ fun _ _ ↦ rfl⟩
    rw [if_pos rfl]
    refine (reads_key hname hkey).andThen ?_
    rw [if_pos rfl, any_eq_false hread hnew fun hm ↦ hm.isAuths]
    exact .afterPure ((reads_colon hws).andThen (hentries.andThen hnext))
  by_cases hhelpers : name = "credHelpers"
  · subst hhelpers
    obtain ⟨names, hm, hnames⟩ := reads_readHelpers hws' h hfit hvs
    refine ⟨_, hm, fun ms' hnext ↦ (reads_moreMembers hlead).bind ?_ fun _ _ ↦ rfl⟩
    rw [if_pos rfl]
    refine (reads_key hname hkey).andThen ?_
    rw [if_neg hauths, if_pos rfl, any_eq_false hread hnew fun hm ↦ hm.isHelpers]
    exact .afterPure ((reads_colon hws).andThen (hnames.andThen hnext))
  · have hkeys : Member.keys (.other name) = if isTable name then v.names else [] := by
      rw [if_neg (by simp [isTable, hauths, hhelpers])]
      rfl
    refine ⟨.other name, ⟨Bool.noConfusion, Bool.noConfusion, hkeys⟩, fun ms' hnext ↦ ?_⟩
    refine (reads_moreMembers hlead).bind ?_ fun _ _ ↦ rfl
    rw [if_pos rfl]
    refine (reads_key hname hkey).andThen ?_
    rw [if_neg hauths, if_neg hhelpers]
    refine (reads_colon hws).andThen ?_
    exact (reads_skipValue h hws' hvs).bind hnext fun _ h ↦ ends_members h' h

theorem reads_fileMembers {seen ms : List (String × Value)} {read : List Member}
    (h : Spells (.members first ms) bs) (hlisting : Listing (seen ++ ms))
    (hread : List.Forall₂ ReadAs seen read) (hsteps : bs.length + 2 ≤ steps) :
    ∃ ms', List.Forall₂ ReadAs (seen ++ ms) ms' ∧
      Reads (Begins (byte '\x7d')) (fileMembers steps first read) bs ms' := by
  -- Each member read joins those seen, so that the members left are fewer and `seen ++ ms` stays.
  induction ms generalizing first bs steps seen read with
  | nil =>
    cases h with | noMember hws => _
    obtain ⟨steps, rfl⟩ := Nat.exists_eq_add_one.2 (Nat.lt_of_add_left_lt hsteps)
    rw [List.append_nil]
    exact ⟨read, hread, (reads_noMoreMembers hws).finish (.pure read)⟩
  | cons m ms ih =>
    cases h with | @member _ name v _ lead key ws ws' vs rest hlead hname hws hws' h h' => _
    obtain ⟨steps, rfl⟩ := Nat.exists_eq_add_one.2 (Nat.lt_of_add_left_lt hsteps)
    simp only [List.length_append, List.length_cons] at hsteps
    have hnew : name ∉ seen.map (·.1) := by
      have hnodup := hlisting.nodup
      rw [List.map_append, List.map_cons, List.nodup_append] at hnodup
      exact fun hseen ↦ hnodup.2.2 name hseen name List.mem_cons_self rfl
    obtain ⟨m', hm, hstep⟩ := reads_fileMember hlead hname hws hws' h h'
      (hlisting.fit (name, v) (by simp)) hread hnew (show key.length ≤ steps by omega) (by omega)
    rw [List.append_cons] at hlisting ⊢
    obtain ⟨ms', hms', hnext⟩ := ih h' hlisting (List.rel_append hread (.cons hm .nil))
      (show _ ≤ steps by omega)
    exact ⟨ms', hms', hstep ms' hnext⟩

theorem reads_file {members : List (String × Value)} (h : SpellsText (.object members) bs)
    (hlisting : Listing members) (hsteps : bs.length ≤ steps) :
    ∃ f, Reads (· = []) (file steps) bs f ∧ ∀ key, key ∈ f.keys ↔ key ∈ loginKeys members := by
  obtain ⟨hws, h, hws'⟩ := h
  cases h with | object h => _
  simp only [List.cons_append, List.length_cons, List.length_append, List.length_nil] at hsteps
  obtain ⟨ms, hms, hread⟩ := reads_fileMembers h (show Listing ([] ++ members) from hlisting) .nil
    (show _ ≤ steps by omega)
  refine ⟨ofMembers ms, ?_, fun key ↦ (mem_loginKeys_iff hms key).symm⟩
  refine Reads.andThen (a := ms) ?_ ((reads_ending hws').finish (.pure _))
  refine .beginning (b := byte '\x7b') hws (by decide) ?_
  rw [if_neg (by decide), if_pos rfl]
  exact .afterSkip (hread.enclosed reads_endObject.anywhere fun _ _ ↦ rfl)

theorem parse_of_spells {members : List (String × Value)} {text : String}
    (h : SpellsText (.object members) (Text.encode text)) (hlisting : Listing members) :
    ∃ f, parse text = .ok f ∧ ∀ key, key ∈ f.keys ↔ key ∈ loginKeys members := by
  obtain ⟨f, hread, hkeys⟩ := reads_file h hlisting (Nat.le_add_right _ 2)
  obtain ⟨stop, hstop⟩ := hread [] 0 rfl
  rw [List.append_nil] at hstop
  refine ⟨f, ?_, hkeys⟩
  unfold parse
  dsimp only
  rw [hstop]

end Reading

end CredentialFile

section Hosts

variable {host key : String} {cs : List Char}

/-- The part of a key or of a registry's text that can name a host. -/
def hostSegment (key : String) : List Char := firstSegment (withoutScheme key.toList)

/-- The names that all stand for the default registry. -/
def hubHosts : List String := defaultHost :: defaultHostAliases

/-- A key that spells a host: with a scheme or none before it, and with a path or none behind it. -/
inductive KeyFor (host : String) : String → Prop
  | mk {scheme path : String} : scheme = "" ∨ scheme ∈ schemes →
      path = "" ∨ (∃ rest, path = "/" ++ rest) → KeyFor host (scheme ++ host ++ path)

theorem normalHost_of_hostSegment {key' : String} (h : hostSegment key = hostSegment key') :
    normalHost key = normalHost key' := by
  unfold hostSegment at h
  unfold normalHost
  rw [h]

theorem hostSegment_of_notMem (h : '/' ∉ host.toList) : hostSegment host = host.toList := by
  rw [hostSegment, withoutScheme_of_notMem h, firstSegment_of_notMem h]

theorem hostSegment_ofList (key : String) :
    hostSegment (.ofList (hostSegment key)) = hostSegment key := by
  rw [hostSegment_of_notMem] <;> rw [String.toList_ofList]
  exact slash_notMem_firstSegment _

theorem normalHost_of_mem_hubHosts (h : host ∈ hubHosts) : normalHost host = defaultHost := by
  have hall : ∀ host ∈ hubHosts, normalHost host = defaultHost := by decide +kernel
  exact hall host h

theorem normalHost_normalHost (key : String) : normalHost (normalHost key) = normalHost key := by
  by_cases h : defaultHostAliases.contains (.ofList (hostSegment key))
  · have hkey : normalHost key = defaultHost := if_pos h
    rw [hkey]
    exact normalHost_of_mem_hubHosts List.mem_cons_self
  · have hkey : normalHost key = .ofList (hostSegment key) := if_neg h
    rw [hkey]
    exact (normalHost_of_hostSegment (hostSegment_ofList key)).trans hkey

theorem firstSegment_trimEnd (cs : List Char) :
    firstSegment (Text.trimEnd '/' cs) = firstSegment cs := by
  obtain ⟨n, hn⟩ := Text.exists_trimEnd '/' cs
  generalize Text.trimEnd '/' cs = trimmed at hn
  cases n with
  | zero => rw [hn, List.replicate_zero, List.append_nil]
  | succ n => rw [hn, List.replicate_succ, firstSegment_append_sep]

theorem firstSegment_scheme {scheme : String} (h : scheme ∈ schemes) (cs : List Char) :
    String.ofList (firstSegment (scheme.toList ++ cs)) ∈ ["https:", "http:"] := by
  unfold schemes at h
  simp only [List.mem_cons, List.not_mem_nil, or_false] at h
  rcases h with rfl | rfl
  · exact List.mem_cons_self
  · exact List.mem_cons_of_mem _ List.mem_cons_self

theorem hostSegment_of_keyFor (h : KeyFor host key) (hsep : '/' ∉ host.toList)
    (hhost : host ∉ ["https:", "http:"]) : hostSegment key = host.toList := by
  cases h with | @mk scheme path hleading hpath => _
  have hfirst : firstSegment (host.toList ++ path.toList) = host.toList := by
    rcases hpath with rfl | ⟨rest, rfl⟩
    · rw [String.toList_empty, List.append_nil, firstSegment_of_notMem hsep]
    · rw [String.toList_append]
      exact (firstSegment_append_sep _ _).trans (firstSegment_of_notMem hsep)
  unfold hostSegment
  rw [String.toList_append, String.toList_append, List.append_assoc]
  rcases hleading with rfl | hscheme
  · have hno : ∀ scheme ∈ schemes, ¬scheme.toList <+: host.toList ++ path.toList := by
      rintro scheme hscheme ⟨cs, hcs⟩
      have hbegin := firstSegment_scheme hscheme cs
      rw [hcs, hfirst, String.ofList_toList] at hbegin
      exact hhost hbegin
    rw [String.toList_empty, List.nil_append, withoutScheme_of_schemeless hno, hfirst]
  · rw [withoutScheme_append hscheme, hfirst]

theorem normalHost_of_keyFor (h : KeyFor host key) (hsep : '/' ∉ host.toList)
    (hhost : host ∉ ["https:", "http:"]) : normalHost key = normalHost host :=
  normalHost_of_hostSegment
    ((hostSegment_of_keyFor h hsep hhost).trans (hostSegment_of_notMem hsep).symm)

theorem ImageReference.registryHost_new {registry : String} (h : hostSegment registry ≠ [])
    (name tag : String) :
    (ImageReference.new registry name tag).registryHost = hostOfSegment (hostSegment registry) := by
  obtain ⟨c, hc⟩ := List.exists_mem_of_ne_nil _ h
  have hmem : ∃ c ∈ withoutScheme registry.toList, c ≠ '/' := by
    refine ⟨c, (List.takeWhile_prefix _).subset hc, ?_⟩
    rintro rfl
    exact slash_notMem_firstSegment _ hc
  unfold ImageReference.registryHost
  rw [ImageReference.toList_registry_new, withoutScheme_trimEnd hmem, firstSegment_trimEnd]
  rfl

def NamesHost (segment : List Char) : Prop :=
  '.' ∈ segment ∨ ':' ∈ segment ∨ segment = "localhost".toList

theorem hostOfSegment_of_namesHost (h : NamesHost cs) : hostOfSegment cs = .ofList cs := by
  have hcondition : (cs.contains '.' || cs.contains ':' || cs = "localhost".toList) = true := by
    simp only [Bool.or_eq_true, List.contains_iff_mem, decide_eq_true_eq, or_assoc]
    exact h
  exact if_pos hcondition

theorem NamesHost.ne_nil (h : NamesHost cs) : cs ≠ [] := by
  rintro rfl
  rcases h with h | h | h
  · cases h
  · cases h
  · exact absurd h (by decide)

end Hosts

theorem FileSystem.readText_of_resolve {fs : FileSystem} {path : Bytes} {l : Location}
    {text : String} {mode : Nat}
    (h : fs.resolve path true = .ok (.found l (.file (.bytes (Text.encode text)) mode))) :
    FileSystem.readText path fs = .ok text fs := by
  change EStateM.bind (FileSystem.read path) _ fs = _
  unfold EStateM.bind
  rw [FileSystem.read_eq, FileSystem.content_eq, h]
  dsimp only [Content.toBytes]
  rw [Text.decode?_eq_some_iff.2 rfl]
  rfl

namespace CredentialFile

structure Lists (fs : FileSystem) (path : Path) (members : List (String × Value)) : Prop where
  listing : Listing members
  spelled : ∃ text fs', FileSystem.readText path.bytes fs = .ok text fs' ∧
    SpellsText (.object members) (Text.encode text)

section Lookup

variable {fs : FileSystem} {path : Path} {members : List (String × Value)} {host key : String}

theorem hasCredentials_of_lists (h : Lists fs path members) (host : String) :
    hasCredentials fs path host =
      .ok (decide (∃ key ∈ loginKeys members, normalHost key = normalHost host)) := by
  obtain ⟨text, fs', hread, hspelled⟩ := h.spelled
  obtain ⟨f, hparse, hkeys⟩ := parse_of_spells hspelled h.listing
  unfold hasCredentials
  rw [hread]
  dsimp only
  rw [hparse]
  dsimp only
  congr 1
  rw [Bool.eq_iff_iff, hasHost_iff, decide_eq_true_eq]
  simp only [hkeys]

theorem found_iff (h : Lists fs path members) : hasCredentials fs path host = .ok true ↔
    ∃ key ∈ loginKeys members, normalHost key = normalHost host := by
  rw [hasCredentials_of_lists h, Except.ok.injEq, decide_eq_true_eq]

/-- Whether there are credentials for a host is whether a key of one of the two tables stands for
the same host, however the file is spelled and whatever else it lists. So more keys do not take
credentials away. A registry that names its host is found under its own text and under any key that
spells the host; one that belongs to the default registry, under any key that spells one of its
names. -/
theorem lookup_by_host (h : Lists fs path members) :
    (∀ host, hasCredentials fs path host =
      .ok (decide (∃ key ∈ loginKeys members, normalHost key = normalHost host))) ∧
    (∀ fs' path' members', Lists fs' path' members' →
      (loginKeys members ⊆ loginKeys members' → ∀ host,
        hasCredentials fs path host = .ok true → hasCredentials fs' path' host = .ok true) ∧
      ((∀ key, key ∈ loginKeys members ↔ key ∈ loginKeys members') → ∀ host,
        hasCredentials fs path host = hasCredentials fs' path' host)) ∧
    (∀ key, normalHost (normalHost key) = normalHost key) ∧
    (∀ registry name tag, let segment := hostSegment registry
      NamesHost segment → .ofList segment ∉ ["https:", "http:"] →
        ∀ key ∈ loginKeys members, key = registry ∨ KeyFor (.ofList segment) key →
          hasCredentials fs path (ImageReference.new registry name tag).registryHost = .ok true) ∧
    ∀ registry name tag, let host := (ImageReference.new registry name tag).registryHost
      host ∈ hubHosts → ∀ hub ∈ hubHosts, ∀ key ∈ loginKeys members, KeyFor hub key →
        hasCredentials fs path host = .ok true := by
  refine ⟨hasCredentials_of_lists h, fun fs' path' members' h' ↦ ⟨?_, ?_⟩,
    normalHost_normalHost, ?_, ?_⟩
  · intro hsub host hfound
    obtain ⟨key, hkey, hhost⟩ := (found_iff h).1 hfound
    exact (found_iff h').2 ⟨key, hsub hkey, hhost⟩
  · intro hkeys host
    rw [hasCredentials_of_lists h, hasCredentials_of_lists h']
    simp only [hkeys]
  · intro registry name tag segment hnames hscheme key hkey hspelled
    refine (found_iff h).2 ⟨key, hkey, ?_⟩
    rw [ImageReference.registryHost_new hnames.ne_nil, hostOfSegment_of_namesHost hnames]
    rcases hspelled with rfl | hspelled
    · exact normalHost_of_hostSegment (hostSegment_ofList key).symm
    · refine normalHost_of_keyFor hspelled ?_ hscheme
      rw [String.toList_ofList]
      exact slash_notMem_firstSegment _
  · intro registry name tag host hhost hub hhub key hkey hspelled
    refine (found_iff h).2 ⟨key, hkey, ?_⟩
    have hhubs : ∀ hub ∈ hubHosts, '/' ∉ hub.toList ∧ hub ∉ ["https:", "http:"] := by
      decide +kernel
    rw [normalHost_of_keyFor hspelled (hhubs hub hhub).1 (hhubs hub hhub).2,
      normalHost_of_mem_hubHosts hhub, normalHost_of_mem_hubHosts hhost]

end Lookup

section Rehearsal

def hubMembers : List (String × Value) :=
  [("auths", .object [("https://index.docker.io/v1/", .object [])]),
    ("credsStore", .string "desktop")]

def hubText : String :=
  "\x7b\"auths\": \x7b\"https://index.docker.io/v1/\": \x7b\x7d\x7d, " ++
    "\"credsStore\": \"desktop\"\x7d"

def hubFiles : FileSystem where
  entries := [([Text.encode "config.json"], .file (.bytes (Text.encode hubText)) 0o600)]

theorem spellsString_plain (cs : List Char)
    (h : (cs.all fun c ↦ 0x20 ≤ c.toNat ∧ c ≠ '"' ∧ c ≠ '\\') = true) :
    SpellsString cs (Text.encodeChars cs ++ [byte '"']) := by
  rw [List.all_iff_forall_prop] at h
  induction cs with
  | nil => exact .nil
  | cons c cs ih =>
    obtain ⟨hcode, hquote, hslash⟩ := h c List.mem_cons_self
    rw [Text.encodeChars_cons, List.append_assoc]
    exact .cons (.plain hcode hquote hslash) (ih fun c hc ↦ h c (List.mem_cons_of_mem _ hc))

theorem spells_hubText : SpellsText (.object hubMembers) (Text.encode hubText) := by
  have hblank : Blanks [byte ' '] := by simp [Blanks]
  have hhub : Spells (.value (.object [])) (byte '\x7b' :: [] ++ [byte '\x7d']) :=
    .object (.noMember blanks_nil)
  have hauths := Spells.object (.member (.first blanks_nil)
    (spellsString_plain "https://index.docker.io/v1/".toList (by decide)) blanks_nil hblank
    hhub (.noMember blanks_nil))
  have hstore := spellsString_plain "desktop".toList (by decide)
  have hfile := Spells.object (.member (.first blanks_nil)
    (spellsString_plain "auths".toList (by decide)) blanks_nil hblank hauths
    (.member (.later blanks_nil hblank) (spellsString_plain "credsStore".toList (by decide))
      blanks_nil hblank (.string hstore) (.noMember blanks_nil)))
  refine Eq.mp (congrArg (SpellsText _) ?_) (SpellsText.mk blanks_nil hfile blanks_nil)
  decide +kernel

theorem resolve_hubFiles : hubFiles.resolve (⟨"config.json"⟩ : Path).bytes true =
    .ok (.found [Text.encode "config.json"] (.file (.bytes (Text.encode hubText)) 0o600)) := by
  have hroute : FileSystem.Route.ofBytes (⟨"config.json"⟩ : Path).bytes =
      ⟨false, [Text.encode "config.json"], false⟩ := by decide
  have hget : hubFiles.get? [Text.encode "config.json"] =
      some (.file (.bytes (Text.encode hubText)) 0o600) :=
    (if_neg (List.cons_ne_nil _ _)).trans List.lookup_cons_self
  have hname : FileSystem.IsName (Text.encode "config.json") :=
    ⟨by decide, by decide, by decide⟩
  refine FileSystem.resolve_eq_ok.2 ⟨by decide, ?_⟩
  rw [hroute]
  exact (FileSystem.walk_into rfl hname hget (by simp)).trans (FileSystem.walk_nil hget)

theorem lists_hubFiles : Lists hubFiles ⟨"config.json"⟩ hubMembers := by
  refine ⟨⟨by decide, fun m hm ↦ ?_⟩, hubText, hubFiles,
    FileSystem.readText_of_resolve resolve_hubFiles, spells_hubText⟩
  simp only [hubMembers, List.mem_cons, List.not_mem_nil, or_false] at hm
  rcases hm with rfl | rfl
  · refine ⟨fun _ ↦ ⟨⟨_, rfl⟩, .object (d := 125) fun e he ↦ ?_⟩, fun h ↦ absurd h (by decide)⟩
    obtain rfl := List.mem_singleton.1 he
    exact .object (d := 124) fun _ h ↦ absurd h List.not_mem_nil
  · exact ⟨fun h ↦ absurd h (by decide), fun h ↦ absurd h (by decide)⟩

theorem lookup_by_host_hub :
    hasCredentials hubFiles ⟨"config.json"⟩
        (ImageReference.new "team" "agent" "1.2.3").registryHost = .ok true ∧
      hasCredentials hubFiles ⟨"config.json"⟩ "ghcr.io" = .ok false := by
  have hkeys : "https://index.docker.io/v1/" ∈ loginKeys hubMembers := by decide
  have hkey : KeyFor "index.docker.io" ("https://" ++ "index.docker.io" ++ "/v1/") :=
    .mk (.inr List.mem_cons_self) (.inr ⟨"v1/", rfl⟩)
  obtain ⟨hall, -, -, -, hhub⟩ := lookup_by_host lists_hubFiles
  refine ⟨hhub "team" "agent" "1.2.3" (by decide +kernel) _ (by decide) _ hkeys hkey, ?_⟩
  exact (hall "ghcr.io").trans (congrArg _ (by decide +kernel))

end Rehearsal

end CredentialFile

end ReleaseTrain
