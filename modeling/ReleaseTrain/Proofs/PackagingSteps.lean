import ReleaseTrain.Packaging.Packager
import ReleaseTrain.Proofs.InTurn

namespace ReleaseTrain

namespace Session.Silent

variable {σ α β : Type}

theorem removeDirectory (path : Path) : Silent (Session.removeDirectory path : Session σ Unit) :=
  onFiles _ _

theorem removeFile (path : Path) : Silent (Session.removeFile path : Session σ Unit) := onFiles _ _

theorem removeEach (path : Path) (entries : List (Location × Node)) :
    Silent (Session.removeEach path entries : Session σ Unit) := by
  induction entries with
  | nil => exact pure _
  | cons e entries ih => exact (onFiles _ _).bind fun _ ↦ ih

theorem emptyDirectory (path : Path) :
    Silent (Session.emptyDirectory path : Session σ Unit) := by
  refine files.bind fun fs ↦ ?_
  cases fs.listDirectory path.bytes with
  | error failure =>
    cases failure
    case notFound => exact pure _
    all_goals exact throw _
  | ok entries => exact removeEach path entries

theorem makeDirectories (path : Path) : Silent (Session.makeDirectories path : Session σ Unit) :=
  onFiles _ _

theorem makeParents (path : Path) : Silent (Session.makeParents path : Session σ Unit) := by
  unfold Session.makeParents
  split
  · exact makeDirectories _
  · exact pure _

theorem writeText (path : Path) (text : String) :
    Silent (Session.writeText path text : Session σ Unit) :=
  (makeParents path).bind fun _ ↦ onFiles _ _

theorem isFile (path : Path) : Silent (Session.isFile path : Session σ Bool) :=
  files.bind fun _ ↦ pure _

theorem read (path : Path) : Silent (Session.read path : Session σ Text.Bytes) := onFiles _ _

theorem digest (path : Path) : Silent (Session.digest path : Session σ String) :=
  (read path).bind fun _ ↦ pure _

theorem archive (source target : Path) :
    Silent (Session.archive source target : Session σ Unit) := by
  refine files.bind fun fs ↦ ?_
  cases fs.directoryAt? source.bytes with
  | none => exact throw _
  | some root =>
    refine (makeParents target).bind fun _ ↦ (onFiles _ _).bind fun _ ↦ files.bind fun fs ↦
      (onFiles _ _).bind fun _ ↦ ?_
    cases (distinctEntries [] (fs.archiveEntries root)).2 with
    | none => exact pure _
    | some name => exact throw _

end Session.Silent

namespace Platform

theorem ofId?_eq_some {selector : String} {p : Platform} :
    ofId? selector = some p ↔ selector = p.id := by
  constructor
  · intro h
    have hid := List.find?_some (p := fun q : Platform ↦ decide (q.id = selector)) h
    exact (of_decide_eq_true hid).symm
  · rintro rfl
    cases p <;> decide

theorem id_ne_everyPlatform (p : Platform) : p.id ≠ everyPlatform := by
  cases p <;> decide

/-- The platforms that a selector names on a host, in the order of the matrix. -/
structure Selected (selector : String) (host : Host) (ps : List Platform) : Prop where
  ordered : ps.Sublist [.linuxX64, .winX64, .winX86, .osxX64, .osxArm64]
  mem_iff : ∀ p, p ∈ ps ↔ selector = p.id ∨
    selector = "all" ∧ ((p = .osxX64 ∨ p = .osxArm64) → host = .macos)

theorem selected_of_resolve {selector : String} {host : Host} {ps : List Platform}
    (h : resolve selector host = .ok ps) : Selected selector host ps := by
  unfold resolve at h
  split at h
  · rename_i hall
    subst hall
    cases h
    refine ⟨List.filter_sublist, fun p ↦ ?_⟩
    simp only [id_ne_everyPlatform p |>.symm, false_or]
    cases p <;> cases host <;> decide
  · rename_i hall
    split at h
    · rename_i p hp
      cases h
      obtain rfl := ofId?_eq_some.1 hp
      refine ⟨?_, fun q ↦ ?_⟩
      · cases p <;> decide
      · have hid : p.id = q.id ↔ q = p := by cases p <;> cases q <;> decide
        rw [List.mem_singleton, hid]
        exact ⟨.inl, fun h ↦ h.resolve_right fun h' ↦ hall h'.1⟩
    · cases h

end Platform

/-- The words of a command, its program first. -/
def Invocation.words (i : Invocation) : List String := i.program :: i.arguments

/-- A publish of a project for a platform. -/
def Invocation.Publishes (i : Invocation) (project : Path) (p : Platform) : Prop :=
  ["dotnet", "publish", project.text] <+: i.words ∧ ["-r", p.id] <:+: i.words

namespace Packaging

variable {σ : Type}

open Session

/-- The commands that package one platform. The agent is handed the archive of the platform's own
slot, and macOS archives its own platforms' bundles. -/
def steps (s : Settings) (v : Version) (p : Platform) : List (Mode × Invocation) :=
  let archive := (s.stagingRoot.join p.id).join "companion.zip"
  (.captured, companionCommand s p v) ::
    ((if s.host = .macos ∧ (p = .osxX64 ∨ p = .osxArm64) then
        [(.captured, dittoCommand (s.bundleDir p) archive)] else []) ++
      [(.captured, agentCommand s p v archive)])

theorem mac_iff {s : Settings} {p : Platform} :
    s.host = .macos ∧ (p = .osxX64 ∨ p = .osxArm64) ↔ s.host = .macos ∧ p.isMac = true := by
  cases p <;> simp [Platform.isMac]

/-- What the commands that package a platform with this archive are. -/
structure Wording (s : Settings) (v : Version) (p : Platform) (archive : Path) : Prop where
  companion : (companionCommand s p v).Publishes s.companionProject p
  ditto : ["ditto"] <+: (dittoCommand (s.bundleDir p) archive).words ∧
    [(s.bundleDir p).text, archive.text] <:+ (dittoCommand (s.bundleDir p) archive).words
  agent : (agentCommand s p v archive).Publishes s.agentProject p
  handed : "-p:CompanionArchivePath=" ++ archive.text ∈ (agentCommand s p v archive).words

theorem wording (s : Settings) (v : Version) (p : Platform) (archive : Path) :
    Wording s v p archive where
  companion :=
    ⟨⟨_, rfl⟩, ["dotnet", "publish", s.companionProject.text, "-c", s.configuration], _, rfl⟩
  ditto := ⟨⟨_, rfl⟩, ["ditto", "-c", "-k", "--sequesterRsrc", "--keepParent"], rfl⟩
  agent := ⟨⟨_, rfl⟩, ["dotnet", "publish", s.agentProject.text, "-c", s.configuration], _, rfl⟩
  handed := by
    refine List.mem_cons_of_mem _ (List.mem_append_right _ ?_)
    simp [toString]

theorem silent_cleanExtra (dirs : List Path) : Silent (cleanExtra dirs : Session σ Unit) := by
  induction dirs with
  | nil => exact .pure _
  | cons dir dirs ih =>
    exact (Silent.report _).bind fun _ ↦ (Silent.removeDirectory dir).bind fun _ ↦ ih

theorem silent_clean (s : Settings) : Silent (clean s : Session σ Unit) :=
  (Silent.report _).bind fun _ ↦ (Silent.removeDirectory _).bind fun _ ↦
    (Silent.emptyDirectory _).bind fun _ ↦ (Silent.removeDirectory _).bind fun _ ↦
      (silent_cleanExtra _).bind fun _ ↦ .report _

theorem silent_clearPlatform (s : Settings) (p : Platform) :
    Silent (clearPlatform s p : Session σ Unit) :=
  (Silent.removeFile _).bind fun _ ↦ (Silent.removeDirectory _).bind fun _ ↦ .removeFile _

theorem silent_verify (s : Settings) (archive : Path) (p : Platform) :
    Silent (verify s archive p : Session σ Artifact) := by
  refine (Silent.isFile _).bind fun there ↦ ?_
  cases there with
  | false => exact (Silent.throw _).bind fun _ ↦ (Silent.read _).bind fun _ ↦
      (Silent.digest _).bind fun _ ↦ (Silent.report _).bind fun _ ↦
        (Silent.report _).bind fun _ ↦ .pure _
  | true => exact (Silent.read _).bind fun _ ↦ (Silent.digest _).bind fun _ ↦
      (Silent.report _).bind fun _ ↦ (Silent.report _).bind fun _ ↦ .pure _

theorem silent_markVersion (s : Settings) (v : Version) :
    Silent (markVersion s v : Session σ Unit) :=
  (Silent.writeText _ _).bind fun _ ↦ .report _

theorem carriesOut_archiveBundle (env : Surroundings σ) (s : Settings) (p : Platform) :
    CarriesOut (archiveBundle env s.stagingRoot p (s.bundleDir p) s.host)
      (if s.host = .macos ∧ (p = .osxX64 ∨ p = .osxArm64) then
        [(.captured, dittoCommand (s.bundleDir p) (slotArchive s.stagingRoot p))] else [])
      (· = slotArchive s.stagingRoot p) := by
  unfold archiveBundle
  simp only
  have hlast : CarriesOut (do
      report (.verbose s!"Archived companion bundle to {(slotArchive s.stagingRoot p).text}")
      return slotArchive s.stagingRoot p : Session σ Path) [] (· = slotArchive s.stagingRoot p) :=
    .silent_bind (Silent.report _) fun _ ↦ .pure rfl
  refine .silent_bind (Silent.makeDirectories _) fun _ ↦ ?_
  by_cases hm : s.host = .macos ∧ p.isMac
  · rw [if_pos hm, if_pos (mac_iff.2 hm)]
    exact (CarriesOut.of_isCommand (.demand env _ _)).bind fun _ _ ↦ hlast
  · rw [if_neg hm, if_neg (mt mac_iff.1 hm)]
    exact .silent_bind (Silent.archive _ _) fun _ ↦ hlast

theorem archive_of_archiveBundle {env : Surroundings σ} {s : Settings} {p : Platform}
    {w w' : World σ} {archive : Path}
    (h : archiveBundle env s.stagingRoot p (s.bundleDir p) s.host w = .ok archive w') :
    archive = slotArchive s.stagingRoot p := by
  obtain ⟨cs, -, -, hpath⟩ := (carriesOut_archiveBundle env s p w).exchanged
  exact hpath archive (result_of_ok h)

theorem carriesOut_packagePlatform (env : Surroundings σ) (s : Settings) (v : Version)
    (p : Platform) : CarriesOut (packagePlatform env s v p) (steps s v p) fun _ ↦ True := by
  refine .silent_bind (Silent.report _) fun _ ↦ .silent_bind (silent_clearPlatform s p) fun _ ↦ ?_
  have hcompanion : CarriesOut (publishCompanion env s v p) [(.captured, companionCommand s p v)]
      fun _ ↦ True := .silent_bind (Silent.report _) fun _ ↦ .of_isCommand (.demand env _ _)
  refine hcompanion.bind fun _ _ ↦ (carriesOut_archiveBundle env s p).bind ?_
  intro archive h
  subst h
  have hagent : CarriesOut (publishAgent env s v (slotArchive s.stagingRoot p) p)
      [(.captured, agentCommand s p v (slotArchive s.stagingRoot p))] fun _ ↦ True :=
    .silent_bind (Silent.report _) fun _ ↦ .of_isCommand (.demand env _ _)
  exact hagent.bind fun _ _ ↦ .of_silent (silent_verify s _ p)

theorem carriesOut_packageEach (env : Surroundings σ) (s : Settings) (v : Version)
    (ps : List Platform) :
    CarriesOut (packageEach env s v ps) (ps.flatMap (steps s v)) fun _ ↦ True := by
  induction ps with
  | nil => exact .pure trivial
  | cons p ps ih =>
    rw [List.flatMap_cons]
    refine (carriesOut_packagePlatform env s v p).bind fun artifact _ ↦ ?_
    rw [← List.append_nil (ps.flatMap _)]
    exact ih.bind fun _ _ ↦ .pure trivial

theorem carriesOut_package (env : Surroundings σ) (s : Settings) (ps : List Platform)
    (v : Version) :
    CarriesOut (package env s ps v) (ps.flatMap (steps s v)) fun _ ↦ True := by
  have hrest : CarriesOut (do
      let artifacts ← packageEach env s v ps
      markVersion s v
      return ⟨v, artifacts, s.versionMarker⟩ : Session σ PackageReport)
      (ps.flatMap (steps s v)) fun _ ↦ True := by
    rw [← List.append_nil (ps.flatMap _)]
    exact (carriesOut_packageEach env s v ps).bind fun _ _ ↦
      .silent_bind (silent_markVersion s v) fun _ ↦ .pure trivial
  unfold package
  simp only
  cases s.clean with
  | false => exact hrest
  | true => exact .silent_bind (silent_clean s) fun _ ↦ hrest

end Packaging

end ReleaseTrain
