import ReleaseTrain.Proofs.AcceptedReference
import ReleaseTrain.Proofs.PackagingPlaces

namespace ReleaseTrain

open FileSystem

namespace Path

variable {p : Path} {right : String}

/-- The components that a text comes to when it stands behind a separator. -/
def added (cs : List Char) : List Component := componentsOfPieces (Text.pieces '/' cs)

theorem added_append (cs ds : List Char) : added (cs ++ '/' :: ds) = added cs ++ added ds := by
  unfold added componentsOfPieces
  rw [Text.pieces_append, List.filterMap_append]

theorem added_of_isPlainName {n : String} (h : IsPlainName n) :
    added n.toList = [.name n.toList] := by
  have hne (t : String) (ht : n ≠ t) : n.toList ≠ t.toList := fun heq ↦ ht (String.toList_inj.1 heq)
  have hempty : n.toList ≠ [] := hne "" h.ne_empty
  have hhere : n.toList ≠ ['.'] := hne "." h.ne_here
  have hup : n.toList ≠ ['.', '.'] := hne ".." h.ne_up
  unfold added componentsOfPieces
  rw [Text.pieces_of_notMem h.no_separator, List.filterMap_cons, if_neg (not_or.2 ⟨hempty, hhere⟩),
    if_neg hup]
  rfl

theorem isAbsolute_iff : p.isAbsolute = true ↔ p.text.toList.head? = some '/' := beq_iff_eq

theorem components_of_isAbsolute (h : p.isAbsolute = true) :
    p.components = .root :: added p.text.toList := by
  unfold components
  rw [if_pos h]
  rfl

theorem join_of_isAbsolute (h : (⟨right⟩ : Path).isAbsolute = true) (p : Path) :
    p.join right = ⟨right⟩ := if_pos (isAbsolute_iff.1 h)

theorem toList_join (hp : p.isAbsolute = true) (h : (⟨right⟩ : Path).isAbsolute = false) :
    ∃ cs, (p.join right).text.toList = cs ++ '/' :: right.toList ∧
      (p.text.toList = cs ∨ p.text.toList = cs ++ ['/']) := by
  have hhead := isAbsolute_iff.1 hp
  have hright : right.toList.head? ≠ some '/' := by
    intro hr
    rw [isAbsolute_iff.2 hr] at h
    cases h
  unfold join
  rw [if_neg hright]
  split
  · next hend =>
    have hlast : p.text.toList.getLast? = some '/' := by
      rw [Bool.or_eq_true, beq_iff_eq] at hend
      refine hend.resolve_left fun hempty ↦ ?_
      have htext : p.text = "" := by simpa using hempty
      rw [htext] at hhead
      cases hhead
    obtain ⟨cs, hcs⟩ := List.getLast?_eq_some_iff.1 hlast
    refine ⟨cs, ?_, .inr hcs⟩
    rw [String.toList_append, hcs, List.append_assoc, List.singleton_append]
  · refine ⟨p.text.toList, ?_, .inl rfl⟩
    rw [String.toList_append, String.toList_append, List.append_assoc]
    rfl

theorem isAbsolute_join (hp : p.isAbsolute = true) (right : String) :
    (p.join right).isAbsolute = true := by
  cases h : (⟨right⟩ : Path).isAbsolute with
  | true => rw [join_of_isAbsolute h, h]
  | false =>
    have hhead := isAbsolute_iff.1 hp
    obtain ⟨cs, htext, hcs⟩ := toList_join hp h
    rw [isAbsolute_iff, htext]
    obtain hcs | hcs := hcs <;> rw [hcs] at hhead
    · rw [List.head?_append, hhead]
      rfl
    · cases cs with
      | nil => rfl
      | cons c cs => exact hhead

theorem join_of_relative (hp : p.isAbsolute = true) (h : (⟨right⟩ : Path).isAbsolute = false) :
    (p.join right).isAbsolute = true ∧
      (p.join right).components = p.components ++ added right.toList := by
  have habsolute := isAbsolute_join hp right
  obtain ⟨cs, htext, hcs⟩ := toList_join hp h
  have hadded : added p.text.toList = added cs := by
    obtain hcs | hcs := hcs
    · rw [hcs]
    · rw [hcs, added_append]
      exact List.append_nil _
  refine ⟨habsolute, ?_⟩
  rw [components_of_isAbsolute habsolute, components_of_isAbsolute hp, htext, added_append, hadded]
  rfl

theorem isAbsolute_absolute {base : Path} (h : base.isAbsolute = true) (p : Path) :
    (p.absolute base).isAbsolute = true := by
  unfold absolute
  split
  · exact h
  · have hhead := head?_foldl_resolveStep (head?_resolveStart h p.components)
      (resolveStart p.components base).2
    obtain ⟨rest, hrest⟩ := List.head?_eq_some_iff.1 hhead
    dsimp only
    rw [hrest]
    cases rest <;> simp [isAbsolute, ofComponents, charsOfComponents, Component.toChars]

/-- `x` lies directly in the directory `d`, by the texts of both. -/
def DirectChild (d x : Path) : Prop := ∃ name, x.components = d.components ++ [.name name]

end Path

namespace Platform

theorem isAbsolute_id (p : Platform) : (⟨p.id⟩ : Path).isAbsolute = false := by
  cases p <;> rfl

theorem isAbsolute_binaryName {name : String} (h : name ≠ "") (p : Platform) :
    (⟨p.binaryName name⟩ : Path).isAbsolute = (⟨name⟩ : Path).isAbsolute := by
  obtain ⟨c, cs, hcs⟩ := List.exists_cons_of_ne_nil fun hnil : name.toList = [] ↦
    h (String.toList_eq_nil_iff.1 hnil)
  unfold Path.isAbsolute
  rw [binaryName, String.toList_append, hcs]
  rfl

end Platform

namespace Settings

variable {s : Settings} {p q : Platform}

/-- Every platform's executable lies directly in the platform's directory and is neither another
platform's executable nor the marker. -/
structure KeepsInside (s : Settings) : Prop where
  child : ∀ p, Path.DirectChild (s.agentDir p) (s.agentBinary p)
  apart : ∀ p q, p ≠ q → (s.agentBinary p).components ≠ (s.agentBinary q).components
  not_marker : ∀ p, (s.agentBinary p).components ≠ s.versionMarker.components

/-- The executable's name is one name, no way to another directory. -/
def OneName (s : Settings) (p : Platform) : Prop :=
  ∃ t, Path.added (p.binaryName s.agentName).toList = [.name t]

theorem agentBinary_of_isAbsolute (h : (⟨p.binaryName s.agentName⟩ : Path).isAbsolute = true) :
    s.agentBinary p = ⟨p.binaryName s.agentName⟩ := Path.join_of_isAbsolute h _

section Relative

variable (hroot : s.outputRoot.isAbsolute = true)
include hroot

theorem components_agentDir (p : Platform) : (s.agentDir p).isAbsolute = true ∧
    (s.agentDir p).components = s.outputRoot.components ++ [.name p.id.toList] := by
  rw [← Path.added_of_isPlainName p.isPlainName_id]
  exact Path.join_of_relative hroot p.isAbsolute_id

theorem components_versionMarker :
    s.versionMarker.components = s.outputRoot.components ++ [.name "version.txt".toList] := by
  rw [← Path.added_of_isPlainName isPlainName_marker]
  exact (Path.join_of_relative hroot rfl).2

variable (h : (⟨p.binaryName s.agentName⟩ : Path).isAbsolute = false)
include h

theorem components_agentBinary : (s.agentBinary p).components = s.outputRoot.components ++
    .name p.id.toList :: Path.added (p.binaryName s.agentName).toList := by
  obtain ⟨habsolute, hcomponents⟩ := components_agentDir hroot p
  rw [agentBinary, (Path.join_of_relative habsolute h).2, hcomponents, List.append_assoc]
  rfl

theorem directChild_iff : Path.DirectChild (s.agentDir p) (s.agentBinary p) ↔ s.OneName p := by
  unfold Path.DirectChild OneName
  rw [components_agentBinary hroot h, (components_agentDir hroot p).2]
  simp

theorem agentBinary_ne_marker : (s.agentBinary p).components ≠ s.versionMarker.components := by
  rw [components_agentBinary hroot h, components_versionMarker hroot]
  intro heq
  obtain ⟨hid, -⟩ := List.cons.inj (List.append_cancel_left heq)
  cases p <;> simp [Platform.id] at hid

theorem agentBinary_ne (hq : (⟨q.binaryName s.agentName⟩ : Path).isAbsolute = false) (hpq : p ≠ q) :
    (s.agentBinary p).components ≠ (s.agentBinary q).components := by
  rw [components_agentBinary hroot h, components_agentBinary hroot hq]
  intro heq
  obtain ⟨hid, -⟩ := List.cons.inj (List.append_cancel_left heq)
  exact hpq (Platform.id_inj.1 (String.toList_inj.1 (Path.Component.name.inj hid)))

end Relative

theorem not_keepsInside (hname : s.agentName ≠ "") (h : (⟨s.agentName⟩ : Path).isAbsolute = true) :
    ¬s.KeepsInside := by
  intro hkeeps
  refine hkeeps.apart .linuxX64 .osxX64 (by decide) ?_
  rw [agentBinary_of_isAbsolute ((Platform.isAbsolute_binaryName hname _).trans h),
    agentBinary_of_isAbsolute ((Platform.isAbsolute_binaryName hname _).trans h)]
  rfl

theorem keepsInside_iff (hroot : s.outputRoot.isAbsolute = true) (hname : s.agentName ≠ "") :
    s.KeepsInside ↔ (⟨s.agentName⟩ : Path).isAbsolute = false ∧ ∀ p, s.OneName p := by
  cases habsolute : (⟨s.agentName⟩ : Path).isAbsolute with
  | true => exact iff_of_false (not_keepsInside hname habsolute) fun h ↦ Bool.noConfusion h.1
  | false =>
    have h (p : Platform) : (⟨p.binaryName s.agentName⟩ : Path).isAbsolute = false :=
      (Platform.isAbsolute_binaryName hname p).trans habsolute
    constructor
    · intro hkeeps
      exact ⟨rfl, fun p ↦ (directChild_iff hroot (h p)).1 (hkeeps.child p)⟩
    · rintro ⟨-, hone⟩
      exact ⟨fun p ↦ (directChild_iff hroot (h p)).2 (hone p),
        fun p q hpq ↦ agentBinary_ne hroot (h p) (h q) hpq,
        fun p ↦ agentBinary_ne_marker hroot (h p)⟩

theorem oneName_of_isPlainName (h : Path.IsPlainName s.agentName) (p : Platform) : s.OneName p :=
  ⟨_, Path.added_of_isPlainName (p.isPlainName_binaryName h)⟩

/-- Of the agent's name a configuration that is accepted says only that it is not blank. The
executables stay in their directories, apart from each other and from the marker, exactly if the
name does not start at the root and is one name with every extension. A name from the root stands
for itself, whatever the platform; any other one leads from the platform's directory, so that no two
platforms share an executable by its text. A plain name also names a place in that directory, and
nothing else, when it is looked up. -/
theorem executable_places {document : String} {c : Config} (h : Config.ofToml document = .ok c)
    {base : Path} (hbase : base.isAbsolute = true) (hup : stepUp ∉ plainSteps base.bytes) :
    let s := ofConfig c.project base
    let name : Path := ⟨s.agentName⟩
    Text.blank s.agentName = false ∧
      (s.KeepsInside ↔ name.isAbsolute = false ∧ ∀ p, s.OneName p) ∧
      (name.isAbsolute = true → ∀ p, s.agentBinary p = ⟨p.binaryName s.agentName⟩) ∧
      (name.isAbsolute = false → ∀ p,
        (Path.DirectChild (s.agentDir p) (s.agentBinary p) ↔ s.OneName p) ∧
        (s.agentBinary p).components ≠ s.versionMarker.components ∧
        ∀ q, p ≠ q → (s.agentBinary p).components ≠ (s.agentBinary q).components) ∧
      (Path.IsPlainName s.agentName → s.KeepsInside ∧ ∀ cwd p,
        Names cwd (s.agentBinary p).bytes
          (home cwd s.outputRoot p ++ [Text.encode (p.binaryName s.agentName)])) := by
  intro s name
  have hblank : Text.blank s.agentName = false := (Config.not_blank_of_ofToml h).1
  have hname : s.agentName ≠ "" := by
    intro hempty
    rw [hempty] at hblank
    cases hblank
  have hroot : s.outputRoot.isAbsolute = true := Path.isAbsolute_absolute hbase _
  have hkind (p : Platform) := Platform.isAbsolute_binaryName hname p
  refine ⟨hblank, keepsInside_iff hroot hname, ?_, ?_, ?_⟩
  · intro habsolute p
    exact agentBinary_of_isAbsolute ((hkind p).trans habsolute)
  · intro hrelative p
    have hp := (hkind p).trans hrelative
    exact ⟨directChild_iff hroot hp, agentBinary_ne_marker hroot hp,
      fun q hpq ↦ agentBinary_ne hroot hp ((hkind q).trans hrelative) hpq⟩
  · intro hplain
    have hrelative : name.isAbsolute = false := by
      refine Bool.eq_false_iff.2 fun habsolute ↦ hplain.no_separator ?_
      exact List.mem_of_head? (Path.isAbsolute_iff.1 habsolute)
    refine ⟨(keepsInside_iff hroot hname).2 ⟨hrelative, oneName_of_isPlainName hplain⟩, ?_⟩
    intro cwd p
    rw [home_eq]
    exact ((names_placeOf (Path.notMem_plainSteps_absolute hup _)).join p.isPlainName_id).join
      (p.isPlainName_binaryName hplain)

theorem executable_places_rehearsed : ∃ c : Config,
    Config.ofToml "[project]\nagent_name = \"remote-agent\"\n" = .ok c ∧
      (ofConfig c.project ⟨"/work/repo"⟩).KeepsInside ∧
      ((ofConfig c.project ⟨"/work/repo"⟩).agentBinary .winX64).text =
        "/work/repo/dist/win-x64/remote-agent.exe" := by
  have h : Config.ofToml "[project]\nagent_name = \"remote-agent\"\n" =
      .ok { project := { agentName := "remote-agent" } } := by decide +kernel
  have hbase : (⟨"/work/repo"⟩ : Path).isAbsolute = true := rfl
  obtain ⟨-, -, -, -, hplain⟩ := executable_places h hbase (by decide +kernel)
  refine ⟨_, h, (hplain ?_).1, by decide +kernel⟩
  exact ⟨by decide, by decide, by decide, by decide⟩

/-- A name from the root passes the check, and then platforms share an executable that lies in none
of their directories. -/
theorem executable_outside : ∃ c : Config,
    Config.ofToml "[project]\nagent_name = \"/agent\"\n" = .ok c ∧
      let s := ofConfig c.project ⟨"/work/repo"⟩
      s.agentDir .linuxX64 = ⟨"/work/repo/dist/linux-x64"⟩ ∧
      s.agentBinary .linuxX64 = ⟨"/agent"⟩ ∧ s.agentBinary .osxX64 = ⟨"/agent"⟩ ∧
      ¬Path.DirectChild (s.agentDir .linuxX64) (s.agentBinary .linuxX64) := by
  have h : Config.ofToml "[project]\nagent_name = \"/agent\"\n" =
      .ok { project := { agentName := "/agent" } } := by decide +kernel
  refine ⟨_, h, by decide +kernel, by decide +kernel, by decide +kernel, ?_⟩
  rintro ⟨name, hchild⟩
  have hlength := congrArg List.length hchild
  rw [List.length_append, List.length_singleton] at hlength
  revert hlength
  decide +kernel

end Settings

end ReleaseTrain
