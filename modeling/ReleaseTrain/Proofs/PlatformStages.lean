import ReleaseTrain.Proofs.ArchivedTree
import ReleaseTrain.Proofs.PackagingFrames
import ReleaseTrain.Proofs.PackagingPlaces

namespace ReleaseTrain

open FileSystem Session Settings

variable {σ : Type} {w w' : World σ}

namespace Session

theorem report_eq_ok {r : Report} (h : report r w = .ok () w') :
    w'.files = w.files ∧ w'.tools = w.tools := by
  cases h
  exact ⟨rfl, rfl⟩

theorem onFiles_ok {α : Type} {cause : FileSystem.Failure → ReleaseError}
    {action : FileSystem.Action α} {a : α} (h : onFiles cause action w = .ok a w') :
    action w.files = .ok a w'.files ∧ w'.tools = w.tools := by
  obtain ⟨haction, hw⟩ := onFiles_eq_ok.1 h
  refine ⟨haction, ?_⟩
  rw [hw]

theorem onFiles_error {α : Type} {cause : FileSystem.Failure → ReleaseError}
    {action : FileSystem.Action α} {e : ReleaseError} (h : onFiles cause action w = .error e w') :
    ∃ failure, action w.files = .error failure w'.files := by
  unfold onFiles at h
  cases haction : action w.files with
  | ok a fs =>
    rw [haction] at h
    cases h
  | error failure fs =>
    rw [haction] at h
    cases h
    exact ⟨failure, rfl⟩

theorem onFiles_done {α : Type} {cause : FileSystem.Failure → ReleaseError}
    {action : FileSystem.Action α} {a : α} {fs : FileSystem} (h : action w.files = .ok a fs) :
    onFiles cause action w = .ok a { w with files := fs } :=
  onFiles_eq_ok.2 ⟨h, rfl⟩

theorem onFiles_failed {α : Type} {cause : FileSystem.Failure → ReleaseError}
    {action : FileSystem.Action α} {failure : Failure} {fs : FileSystem}
    (h : action w.files = .error failure fs) :
    onFiles cause action w = .error (cause failure) { w with files := fs } := by
  unfold onFiles
  rw [h]

theorem read_eq_ok {path : Path} {bytes : Text.Bytes} : Session.read path w = .ok bytes w' ↔
    w' = w ∧ ∃ held, FileSystem.content path.bytes w.files = .ok held w.files ∧
      bytes = held.toBytes := by
  unfold Session.read
  rw [onFiles_eq_ok, FileSystem.read_eq, content_eq]
  generalize w.files.resolve path.bytes true = target
  rcases target with failure | ⟨l, node⟩ | ⟨d, name⟩
  · simp
  · cases node with
    | file held mode =>
      constructor
      · intro h
        obtain ⟨hbytes, hfiles⟩ := EStateM.Result.ok.inj h.1
        exact ⟨by rw [h.2, ← hfiles], held, rfl, hbytes.symm⟩
      · rintro ⟨rfl, held', hheld, rfl⟩
        cases hheld
        exact ⟨rfl, rfl⟩
    | directory | link t => simp
  · simp

theorem demand_ok {env : Surroundings σ} {command : Invocation} {refusal : Outcome → ReleaseError}
    (h : demand env command refusal w = .ok () w') :
    (env.execute .captured command w.files w.tools).result = .ok ⟨some 0⟩ ∧
      w'.files = (env.execute .captured command w.files w.tools).files ∧
      w'.tools = (env.execute .captured command w.files w.tools).tools := by
  obtain ⟨a, -, hresult, hfiles, htools, hend⟩ := (IsCommand.demand env command refusal w).exchanged
  rw [after_of_ok h] at hfiles htools
  rw [result_of_ok h] at hend
  obtain ⟨ha, -⟩ | ⟨-, herror⟩ := hend
  · exact ⟨hresult ▸ ha, hfiles, htools⟩
  · cases herror

theorem files_after_onFiles {α : Type} {cause : FileSystem.Failure → ReleaseError}
    {action : FileSystem.Action α} :
    (after (onFiles cause action) w).files = remaining (action w.files) := by
  unfold after onFiles
  cases action w.files <;> rfl

theorem grown_makeParents {path : Path} {l : Location} (hfs : w.files.WellFormed)
    (hn : Names w.files.workingDirectory path.bytes l) (hne : plainSteps path.bytes ≠ [])
    (hlinks : w.files.Direct l) : Grown l.dropLast w.files (after (makeParents path) w).files := by
  unfold makeParents
  cases hparent : path.parent? with
  | none => exact .refl l.dropLast w.files
  | some parent =>
    dsimp only [Session.makeDirectories]
    rw [files_after_onFiles]
    exact grown_makeDirectories hfs (hn.parent hparent hne) (hlinks.of_prefix l.dropLast_prefix)

theorem tools_of_makeParents {path : Path} (h : makeParents path w = .ok () w') :
    w'.tools = w.tools := by
  unfold makeParents at h
  cases hparent : path.parent? with
  | none =>
    rw [hparent] at h
    cases h
    rfl
  | some parent =>
    rw [hparent] at h
    exact (onFiles_ok h).2

theorem makeParents_plain {path : Path} {l : Location} (hfs : w.files.WellFormed)
    (hn : Names w.files.workingDirectory path.bytes l) (hne : plainSteps path.bytes ≠ [])
    (hlinks : w.files.Direct l) (h : makeParents path w = .ok () w') :
    Grown l w.files w'.files ∧ w'.tools = w.tools := by
  have hgrown := grown_makeParents hfs hn hne hlinks
  rw [after_of_ok h] at hgrown
  exact ⟨hgrown.mono l.dropLast_prefix, tools_of_makeParents h⟩

theorem archive_eq_ok {source target : Path} : archive source target w = .ok () w' ↔
    ∃ root w₁ w₂ entries, w.files.directoryAt? source.bytes = some root ∧
      makeParents target w = .ok () w₁ ∧
      onFiles .io (FileSystem.write target.bytes (.archive [])) w₁ = .ok () w₂ ∧
      distinctEntries [] (w₂.files.archiveEntries root) = (entries, none) ∧
      onFiles .io (FileSystem.write target.bytes (.archive entries)) w₂ = .ok () w' := by
  unfold archive
  constructor
  · intro h
    obtain ⟨fs, w₀, hfiles, h⟩ := bind_eq_ok.1 h
    cases hfiles
    dsimp only at h
    cases hroot : w.files.directoryAt? source.bytes with
    | none =>
      rw [hroot] at h
      cases h
    | some root =>
      rw [hroot] at h
      obtain ⟨_, w₁, hparents, h⟩ := bind_eq_ok.1 h
      obtain ⟨_, w₂, hempty, h⟩ := bind_eq_ok.1 h
      obtain ⟨fs, w₂', hfiles, h⟩ := bind_eq_ok.1 h
      cases hfiles
      cases hentries : distinctEntries [] (w₂.files.archiveEntries root) with
      | mk entries again =>
        rw [hentries] at h
        obtain ⟨_, w₃, hwrite, h⟩ := bind_eq_ok.1 h
        cases again with
        | some name => cases h
        | none =>
          cases h
          exact ⟨root, w₁, w₂, entries, rfl, hparents, hempty, hentries, hwrite⟩
  · intro h
    obtain ⟨root, w₁, w₂, entries, hroot, hparents, hempty, hentries, hwrite⟩ := h
    refine bind_eq_ok.2 ⟨w.files, w, rfl, ?_⟩
    dsimp only
    rw [hroot]
    refine bind_eq_ok.2 ⟨(), w₁, hparents, bind_eq_ok.2 ⟨(), w₂, hempty,
      bind_eq_ok.2 ⟨w₂.files, w₂, rfl, ?_⟩⟩⟩
    rw [hentries]
    exact bind_eq_ok.2 ⟨(), w', hwrite, rfl⟩

/-- An archive is written in its place, whatever it is made of. The place is written twice: it is
emptied before the source is looked through. -/
theorem archive_written {source target : Path} {l t : Location} (hfs : w.files.WellFormed)
    (hsource : Names w.files.workingDirectory source.bytes l) (hl : w.files.Direct l)
    (hne : source.bytes ≠ []) (htarget : Names w.files.workingDirectory target.bytes t)
    (ht : w.files.Direct t) (hsteps : plainSteps target.bytes ≠ [])
    (h : archive source target w = .ok () w') :
    w'.tools = w.tools ∧ Within t w.files w'.files ∧ w.files.get? l = some .directory ∧
      ∃ looked entries, looked.WellFormed ∧ Within t w.files looked ∧
        distinctEntries [] (looked.archiveEntries l) = (entries, none) ∧
        FileSystem.content target.bytes w'.files = .ok (.archive entries) w'.files := by
  obtain ⟨root, w₁, w₂, entries, hroot, hparents, hempty, hentries, hwrite⟩ := archive_eq_ok.1 h
  obtain ⟨rfl, hdirectory⟩ := directoryAt?_plain hfs hsource hl hne hroot
  have hpath : target.bytes ≠ [] := by
    intro hnil
    rw [hnil] at hsteps
    exact hsteps rfl
  obtain ⟨hgrown, htools₁⟩ := makeParents_plain hfs htarget hsteps ht hparents
  obtain ⟨hempty, htools₂⟩ := onFiles_ok hempty
  obtain ⟨hwrite, htools₃⟩ := onFiles_ok hwrite
  have hwithin₁ := Within.of_grown hgrown
  have htarget₁ := htarget
  rw [← hwithin₁.workingDirectory] at htarget₁
  obtain ⟨htop, ⟨mode₂, h₂⟩, hfs₂⟩ :=
    write_plain (hwithin₁.wellFormed hfs) htarget₁ (hgrown.direct ht) hpath hempty
  have hwithin₂ : Within t w.files w₂.files := by
    rw [h₂] at hfs₂ ⊢
    exact hwithin₁.trans (.set htop hfs₂)
  rw [← hwithin₂.workingDirectory] at htarget
  have ht₂ : w₂.files.Direct t := fun m hm target hget ↦
    ht m hm target (hwithin₂.links m target hget)
  obtain ⟨-, ⟨mode₃, h₃⟩, hfs₃⟩ := write_plain hfs₂ htarget ht₂ hpath hwrite
  have hwithin₃ : Within t w.files w'.files := by
    rw [h₃] at hfs₃ ⊢
    exact hwithin₂.trans (.set htop hfs₃)
  exact ⟨by rw [htools₃, htools₂, htools₁], hwithin₃, hdirectory, w₂.files, entries, hfs₂, hwithin₂,
    hentries, content_of_write hwrite⟩

/-- A command ran and succeeded. -/
structure Ran (env : Surroundings σ) (command : Invocation) (w w' : World σ) : Prop where
  result : (env.execute .captured command w.files w.tools).result = .ok ⟨some 0⟩
  files : w'.files = (env.execute .captured command w.files w.tools).files
  tools : w'.tools = (env.execute .captured command w.files w.tools).tools

theorem ran_of_demand {env : Surroundings σ} {command : Invocation} {r : Report}
    {refusal : Outcome → ReleaseError}
    (h : (report r >>= fun _ ↦ demand env command refusal) w = .ok () w') :
    Ran env command w w' := by
  obtain ⟨_, w₁, hreport, h⟩ := bind_eq_ok.1 h
  obtain ⟨hfiles, htools⟩ := report_eq_ok hreport
  obtain ⟨hresult, hfiles', htools'⟩ := demand_ok h
  rw [hfiles, htools] at hresult hfiles' htools'
  exact ⟨hresult, hfiles', htools'⟩

end Session

namespace Settings

variable {s : Settings} {cwd o : Location} {fs fs' fs'' : FileSystem} {ps qs : List Platform}
  {p : Platform}

/-- What stands outside the platforms' own directories stays, and no link comes near the roots. -/
structure Kept (s : Settings) (cwd : Location) (ps : List Platform) (fs fs' : FileSystem) :
    Prop where
  ready : s.Ready cwd fs → s.Ready cwd fs'
  stays : ∀ m node, (∀ p ∈ ps, ∀ r ∈ s.roots, ¬home cwd r p <+: m) →
    fs.get? m = some node → fs'.get? m = some node

namespace Kept

theorem refl (s : Settings) (cwd : Location) (ps : List Platform) (fs : FileSystem) :
    s.Kept cwd ps fs fs := ⟨id, fun _ _ _ ↦ id⟩

theorem trans (h : s.Kept cwd ps fs fs') (h' : s.Kept cwd ps fs' fs'') : s.Kept cwd ps fs fs'' :=
  ⟨h'.ready ∘ h.ready, fun m node hm ↦ h'.stays m node hm ∘ h.stays m node hm⟩

theorem mono (h : s.Kept cwd ps fs fs') (hps : ps ⊆ qs) : s.Kept cwd qs fs fs' :=
  ⟨h.ready, fun m node hm ↦ h.stays m node fun p hp ↦ hm p (hps hp)⟩

theorem of_within {r : Path} (hr : r ∈ s.roots) (hp : p ∈ ps) (ho : home cwd r p <+: o)
    (h : Within o fs fs') : s.Kept cwd ps fs fs' :=
  ⟨fun hready ↦ hready.within h, fun _ _ hm ↦ (h.mono ho).stays (hm p hp r hr)⟩

end Kept

/-- Each publish writes in the directory that it is told to write to, and the system's archiver
writes its destination; no link is made. -/
structure Confined (s : Settings) (cwd : Location) (v : Version) (env : Surroundings σ) :
    Prop where
  companion : ∀ p fs tools, s.Ready cwd fs → Within (placeOf cwd (s.bundleDir p).bytes) fs
    (env.execute .captured (companionCommand s p v) fs tools).files
  agent : ∀ p fs tools, s.Ready cwd fs → Within (placeOf cwd (s.agentDir p).bytes) fs
    (env.execute .captured (agentCommand s p v (slotArchive s.stagingRoot p)) fs tools).files
  ditto : ∀ p fs tools, s.Ready cwd fs →
    Within (placeOf cwd (slotArchive s.stagingRoot p).bytes) fs
      (env.execute .captured (dittoCommand (s.bundleDir p) (slotArchive s.stagingRoot p)) fs
        tools).files

theorem Confined.withClean {v : Version} {env : Surroundings σ} (h : s.Confined cwd v env)
    (c : Bool) : Confined { s with clean := c } cwd v env :=
  ⟨fun p fs tools hready ↦ h.companion p fs tools hready.of_withClean,
    fun p fs tools hready ↦ h.agent p fs tools hready.of_withClean,
    fun p fs tools hready ↦ h.ditto p fs tools hready.of_withClean⟩

theorem home_prefix_archivePlace (s : Settings) (cwd : Location) (p : Platform) :
    home cwd s.stagingRoot p <+: s.archivePlace cwd p := by
  rw [archivePlace_eq]
  exact List.prefix_append _ _

theorem Separate.home_prefix_executablePlace (h : s.Separate cwd) (p : Platform) :
    home cwd s.outputRoot p <+: s.executablePlace cwd p := by
  rw [h.executablePlace_eq]
  exact List.prefix_append _ _

end Settings

namespace Packaging

variable {env : Surroundings σ} {s : Settings} {cwd : Location} {v : Version} {p : Platform}

/-- The beginning of a platform's packaging, up to its first command. -/
def beginPlatform (s : Settings) (p : Platform) : Session σ Unit := do
  report (.heading s!"Building {p.text}")
  clearPlatform s p

theorem begin_of_removals {fs₁ fs₂ fs₃ : FileSystem}
    (hslot : ifAny (FileSystem.removeFile (slotArchive s.stagingRoot p).bytes) w.files = .ok () fs₁)
    (hbundle : ifAny (FileSystem.removeDirectory (s.bundleDir p).bytes) fs₁ = .ok () fs₂)
    (hexecutable : ifAny (FileSystem.removeFile (s.agentBinary p).bytes) fs₂ = .ok () fs₃) :
    ∃ w', beginPlatform s p w = .ok () w' ∧ w'.files = fs₃ :=
  ⟨_, bind_eq_ok.2 ⟨(), _, rfl, bind_eq_ok.2 ⟨(), _, onFiles_done hslot,
    bind_eq_ok.2 ⟨(), _, onFiles_done hbundle, onFiles_done hexecutable⟩⟩⟩, rfl⟩

/-- A platform's packaging, stage by stage. -/
theorem packagePlatform_ok {a : Artifact} (h : packagePlatform env s v p w = .ok a w') :
    ∃ cleared left archive archived published,
      beginPlatform s p w = .ok () cleared ∧
      publishCompanion env s v p cleared = .ok () left ∧
      archiveBundle env s.stagingRoot p (s.bundleDir p) s.host left = .ok archive archived ∧
      publishAgent env s v archive p archived = .ok () published ∧
      verify s archive p published = .ok a w' := by
  unfold packagePlatform at h
  obtain ⟨_, headed, hheading, h⟩ := bind_eq_ok.1 h
  obtain ⟨_, cleared, hclear, h⟩ := bind_eq_ok.1 h
  obtain ⟨_, left, hcompanion, h⟩ := bind_eq_ok.1 h
  obtain ⟨archive, archived, harchive, h⟩ := bind_eq_ok.1 h
  obtain ⟨_, published, hagent, hverify⟩ := bind_eq_ok.1 h
  exact ⟨cleared, left, archive, archived, published, bind_eq_ok.2 ⟨_, headed, hheading, hclear⟩,
    hcompanion, harchive, hagent, hverify⟩

theorem files_of_begin (hsep : s.Separate cwd) (hready : s.Ready cwd w.files)
    (h : beginPlatform s p w = .ok () w') :
    w'.tools = w.tools ∧ w'.files = ((w.files.removeTree (s.archivePlace cwd p)).removeTree
      (home cwd s.companionRoot p)).removeTree (s.executablePlace cwd p) := by
  obtain ⟨_, w₀, hreport, h⟩ := bind_eq_ok.1 h
  obtain ⟨hfiles, htools⟩ := report_eq_ok hreport
  obtain ⟨_, w₁, hslot, h⟩ := bind_eq_ok.1 h
  obtain ⟨_, w₂, hbundle, hexecutable⟩ := bind_eq_ok.1 h
  obtain ⟨hslot, htools₁⟩ := onFiles_ok hslot
  obtain ⟨hbundle, htools₂⟩ := onFiles_ok hbundle
  obtain ⟨hexecutable, htools₃⟩ := onFiles_ok hexecutable
  refine ⟨by rw [htools₃, htools₂, htools₁, htools], ?_⟩
  rw [hfiles] at hslot
  have hname := p.isPlainName_binaryName hsep.agentName
  have h₁ : w₁.files = w.files.removeTree (s.archivePlace cwd p) := by
    refine removeFile_plain hready.wellFormed (hready.names (hsep.names_archive p)) ?_
      (Path.bytes_join_ne_nil isPlainName_archive _) ?_ hslot
    · exact hready.direct s.stagingRoot_mem
        ((root_prefix_home cwd _ p).trans (s.home_prefix_archivePlace cwd p))
    · simp [archivePlace_eq]
  have hready₁ := hready.within (Within.removeTree w.files (s.archivePlace cwd p))
  rw [← h₁] at hready₁ ⊢
  have h₂ : w₂.files = w₁.files.removeTree (home cwd s.companionRoot p) := by
    refine removeDirectory_plain hready₁.wellFormed
      (hready₁.names (hsep.names_home s.companionRoot_mem p))
      (hready₁.direct_home s.companionRoot_mem p) (Path.bytes_join_ne_nil p.isPlainName_id _)
      (home_ne_nil cwd _ p) ?_ hbundle
    rw [Path.lastStep?_join p.isPlainName_id]
    exact fun heq ↦ p.isPlainName_id.encode_ne_up (Option.some.inj heq)
  have hready₂ := hready₁.within (Within.removeTree w₁.files (home cwd s.companionRoot p))
  rw [← h₂] at hready₂ ⊢
  refine removeFile_plain hready₂.wellFormed (hready₂.names (hsep.names_executable p)) ?_
    (Path.bytes_join_ne_nil hname _) ?_ hexecutable
  · exact hready₂.direct s.outputRoot_mem
      ((root_prefix_home cwd _ p).trans (hsep.home_prefix_executablePlace p))
  · simp [hsep.executablePlace_eq]

theorem kept_of_begin (hsep : s.Separate cwd) (hready : s.Ready cwd w.files)
    (h : beginPlatform s p w = .ok () w') : s.Kept cwd [p] w.files w'.files := by
  have hp : p ∈ [p] := List.mem_singleton_self p
  rw [(files_of_begin hsep hready h).2]
  have hslot := Kept.of_within s.stagingRoot_mem hp (s.home_prefix_archivePlace cwd p)
    (Within.removeTree w.files _)
  have hbundle := Kept.of_within s.companionRoot_mem hp (List.prefix_refl (home cwd _ p))
    (Within.removeTree (w.files.removeTree (s.archivePlace cwd p)) _)
  exact (hslot.trans hbundle).trans (.of_within s.outputRoot_mem hp
    (hsep.home_prefix_executablePlace p) (Within.removeTree _ _))

theorem no_bundle_of_begin (hsep : s.Separate cwd) (hready : s.Ready cwd w.files)
    (h : beginPlatform s p w = .ok () w') {m : Location} (hm : home cwd s.companionRoot p <+: m) :
    w'.files.get? m = none := by
  rw [(files_of_begin hsep hready h).2]
  have hbundle : ((w.files.removeTree (s.archivePlace cwd p)).removeTree
      (home cwd s.companionRoot p)).get? m = none :=
    get?_removeTree_beneath (home_ne_nil cwd s.companionRoot p) hm
  obtain hsame | hnone := (Shrunk.removeTree ((w.files.removeTree (s.archivePlace cwd p)).removeTree
    (home cwd s.companionRoot p)) (s.executablePlace cwd p)).get? m
  · rw [hsame, hbundle]
  · exact hnone

theorem no_executable_of_begin (hsep : s.Separate cwd) (hready : s.Ready cwd w.files)
    (h : beginPlatform s p w = .ok () w') : w'.files.get? (s.executablePlace cwd p) = none := by
  rw [(files_of_begin hsep hready h).2]
  refine get?_removeTree_beneath ?_ (List.prefix_refl _)
  simp [hsep.executablePlace_eq]

theorem archiveBundle_ok {archive : Path} (hhost : ¬(s.host = .macos ∧ p.isMac))
    (h : archiveBundle env s.stagingRoot p (s.bundleDir p) s.host w = .ok archive w') :
    archive = slotArchive s.stagingRoot p ∧ ∃ slotted,
      FileSystem.makeDirectories (slot s.stagingRoot p).bytes w.files = .ok () slotted.files ∧
      slotted.tools = w.tools ∧ ∃ archived, Session.archive (s.bundleDir p)
        (slotArchive s.stagingRoot p) slotted = .ok () archived ∧
      w'.files = archived.files ∧ w'.tools = archived.tools := by
  unfold archiveBundle at h
  rw [if_neg hhost] at h
  obtain ⟨_, slotted, hslot, h⟩ := bind_eq_ok.1 h
  obtain ⟨_, archived, harchive, h⟩ := bind_eq_ok.1 h
  obtain ⟨_, w₃, hreport, h⟩ := bind_eq_ok.1 h
  cases h
  obtain ⟨hfiles, htools⟩ := report_eq_ok hreport
  obtain ⟨hslot, htools₁⟩ := onFiles_ok hslot
  exact ⟨rfl, slotted, hslot, htools₁, archived, harchive, hfiles, htools⟩

theorem within_makeSlot {fs fs' : FileSystem} (hsep : s.Separate cwd) (hready : s.Ready cwd fs)
    (h : FileSystem.makeDirectories (slot s.stagingRoot p).bytes fs = .ok () fs') :
    Within (home cwd s.stagingRoot p) fs fs' :=
  .of_grown (makeDirectories_plain hready.wellFormed
    (hready.names (hsep.names_home s.stagingRoot_mem p)) (hready.direct_home s.stagingRoot_mem p) h)

theorem slotArchive_written (hsep : s.Separate cwd) (hready : s.Ready cwd w.files)
    (h : Session.archive (s.bundleDir p) (slotArchive s.stagingRoot p) w = .ok () w') :
    w'.tools = w.tools ∧ Within (s.archivePlace cwd p) w.files w'.files ∧
      w.files.get? (home cwd s.companionRoot p) = some .directory ∧
      ∃ looked entries, looked.WellFormed ∧ Within (s.archivePlace cwd p) w.files looked ∧
        distinctEntries [] (looked.archiveEntries (home cwd s.companionRoot p)) = (entries, none) ∧
        FileSystem.content (slotArchive s.stagingRoot p).bytes w'.files =
          .ok (.archive entries) w'.files :=
  archive_written hready.wellFormed (hready.names (hsep.names_home s.companionRoot_mem p))
    (hready.direct_home s.companionRoot_mem p) (Path.bytes_join_ne_nil p.isPlainName_id _)
    (hready.names (hsep.names_archive p))
    (hready.direct s.stagingRoot_mem
      ((root_prefix_home cwd _ p).trans (s.home_prefix_archivePlace cwd p)))
    (by simp [slotArchive, Path.plainSteps_join isPlainName_archive]) h

theorem archiveBundle_slot {archive : Path} (hsep : s.Separate cwd) (hready : s.Ready cwd w.files)
    (hhost : ¬(s.host = .macos ∧ p.isMac))
    (h : archiveBundle env s.stagingRoot p (s.bundleDir p) s.host w = .ok archive w') :
    archive = slotArchive s.stagingRoot p ∧ w'.tools = w.tools ∧
      Within (home cwd s.stagingRoot p) w.files w'.files := by
  obtain ⟨harchive, slotted, hslot, htools₁, archived, hmade, hfiles, htools⟩ :=
    archiveBundle_ok hhost h
  have hgrown := within_makeSlot hsep hready hslot
  obtain ⟨htools₂, hwithin, -⟩ := slotArchive_written hsep (hready.within hgrown) hmade
  rw [hfiles, htools, htools₂, htools₁]
  exact ⟨harchive, rfl, hgrown.trans (hwithin.mono (s.home_prefix_archivePlace cwd p))⟩

theorem archiveBundle_inProcess {archive : Path} (hdisjoint : s.Disjoint cwd)
    (hready : s.Ready cwd w.files) (hhost : ¬(s.host = .macos ∧ p.isMac))
    (h : archiveBundle env s.stagingRoot p (s.bundleDir p) s.host w = .ok archive w') :
    w.files.get? (home cwd s.companionRoot p) = some .directory ∧
      w.files.Holds (home cwd s.companionRoot p)
        (w.files.archiveEntries (home cwd s.companionRoot p)) ∧
      FileSystem.content (slotArchive s.stagingRoot p).bytes w'.files =
        .ok (.archive (w.files.archiveEntries (home cwd s.companionRoot p))) w'.files := by
  have hsep := hdisjoint.toSeparate
  obtain ⟨-, slotted, hslot, -, archived, hmade, hfiles, -⟩ := archiveBundle_ok hhost h
  have hgrown := within_makeSlot hsep hready hslot
  obtain ⟨-, -, hdirectory, looked, entries, hlooked, hwithin, hentries, hcontent⟩ :=
    slotArchive_written hsep (hready.within hgrown) hmade
  have hapart : Apart (home cwd s.stagingRoot p) (home cwd s.companionRoot p) :=
    hdisjoint.apart_homes s.stagingRoot_mem s.companionRoot_mem
      (.inl hdisjoint.stagingRoot_ne_companionRoot)
  -- Neither the slot nor the archive that is begun in it lies in the bundle.
  have hbundle {fs : FileSystem} (h : Within (home cwd s.stagingRoot p) w.files fs)
      (rel : Location) : fs.get? (home cwd s.companionRoot p ++ rel) =
        w.files.get? (home cwd s.companionRoot p ++ rel) :=
    h.get?_of_apart (hapart.beneath (List.prefix_refl _) (List.prefix_append _ rel))
  have hsame : looked.archiveEntries (home cwd s.companionRoot p) =
      w.files.archiveEntries (home cwd s.companionRoot p) :=
    archiveEntries_congr hready.wellFormed hlooked fun rel _ ↦
      hbundle (hgrown.trans (hwithin.mono (s.home_prefix_archivePlace cwd p))) rel
  have hroot := hbundle hgrown []
  rw [List.append_nil, hdirectory] at hroot
  rw [hsame] at hentries
  obtain ⟨rfl, hnodup, -⟩ := distinctEntries_eq hentries
  rw [hfiles]
  exact ⟨hroot.symm, holds_archiveEntries hready.wellFormed hnodup, hcontent⟩

theorem archiveBundle_dittoed {archive : Path} (hsep : s.Separate cwd)
    (hready : s.Ready cwd w.files) (hhost : s.host = .macos ∧ p.isMac)
    (h : archiveBundle env s.stagingRoot p (s.bundleDir p) s.host w = .ok archive w') :
    archive = slotArchive s.stagingRoot p ∧ ∃ slotted,
      Within (home cwd s.stagingRoot p) w.files slotted.files ∧ slotted.tools = w.tools ∧
      Ran env (dittoCommand (s.bundleDir p) (slotArchive s.stagingRoot p)) slotted w' := by
  unfold archiveBundle at h
  rw [if_pos hhost] at h
  obtain ⟨_, w₁, hslot, h⟩ := bind_eq_ok.1 h
  obtain ⟨_, w₂, hditto, h⟩ := bind_eq_ok.1 h
  obtain ⟨_, w₃, hreport, h⟩ := bind_eq_ok.1 h
  cases h
  obtain ⟨hfiles, htools⟩ := report_eq_ok hreport
  obtain ⟨hslot, htools₁⟩ := onFiles_ok hslot
  obtain ⟨hresult, hfiles₂, htools₂⟩ := demand_ok hditto
  exact ⟨rfl, w₁, within_makeSlot hsep hready hslot, htools₁, hresult, hfiles.trans hfiles₂, htools.trans htools₂⟩

theorem archiveBundle_within {archive : Path} (hsep : s.Separate cwd)
    (hconfined : s.Confined cwd v env) (hready : s.Ready cwd w.files)
    (h : archiveBundle env s.stagingRoot p (s.bundleDir p) s.host w = .ok archive w') :
    archive = slotArchive s.stagingRoot p ∧ Within (home cwd s.stagingRoot p) w.files w'.files := by
  by_cases hhost : s.host = .macos ∧ p.isMac
  · obtain ⟨harchive, slotted, hslot, -, hran⟩ := archiveBundle_dittoed hsep hready hhost h
    have hditto := hconfined.ditto p slotted.files slotted.tools (hready.within hslot)
    rw [← hran.files] at hditto
    exact ⟨harchive, hslot.trans (hditto.mono (s.home_prefix_archivePlace cwd p))⟩
  · obtain ⟨harchive, -, hwithin⟩ := archiveBundle_slot hsep hready hhost h
    exact ⟨harchive, hwithin⟩

theorem verify_ok {archive : Path} {a : Artifact} (h : verify s archive p w = .ok a w') :
    w'.files = w.files ∧ w'.tools = w.tools ∧ ∃ held,
      FileSystem.content (s.agentBinary p).bytes w.files = .ok held w.files ∧
      a = ⟨p, s.agentBinary p, archive, held.toBytes.length, Digest.ofFile held.toBytes⟩ := by
  obtain ⟨there, w₀, hthere, h⟩ := bind_eq_ok.1 h
  cases hthere
  cases hfile : w.files.isFile (s.agentBinary p).bytes with
  | false =>
    rw [hfile] at h
    cases h
  | true =>
    rw [hfile] at h
    obtain ⟨bytes, w₁, hread, hrest⟩ := bind_eq_ok.1 h
    obtain ⟨sha256, w₂, hdigest, hreport⟩ := bind_eq_ok.1 hrest
    obtain ⟨bytes', w₃, hread', hsha⟩ := bind_eq_ok.1 hdigest
    obtain ⟨rfl, held, hheld, rfl⟩ := read_eq_ok.1 hread
    obtain ⟨rfl, held', hheld', rfl⟩ := read_eq_ok.1 hread'
    rw [hheld] at hheld'
    cases hheld'
    cases hsha
    cases hreport
    exact ⟨rfl, rfl, held, hheld, rfl⟩

theorem archiveBundle_of_writes (made emptied : FileSystem) (root : Location)
    (entries : List ArchiveEntry) {written : FileSystem} (hhost : ¬(s.host = .macos ∧ p.isMac))
    (hparent : (slotArchive s.stagingRoot p).parent? = some (slot s.stagingRoot p))
    (hslot : FileSystem.makeDirectories (slot s.stagingRoot p).bytes w.files = .ok () made)
    (hroot : made.directoryAt? (s.bundleDir p).bytes = some root)
    (hagain : FileSystem.makeDirectories (slot s.stagingRoot p).bytes made = .ok () made)
    (hempty : FileSystem.write (slotArchive s.stagingRoot p).bytes (.archive []) made =
      .ok () emptied)
    (hentries : distinctEntries [] (emptied.archiveEntries root) = (entries, none))
    (hwrite : FileSystem.write (slotArchive s.stagingRoot p).bytes (.archive entries) emptied =
      .ok () written) :
    ∃ w', archiveBundle env s.stagingRoot p (s.bundleDir p) s.host w =
        .ok (slotArchive s.stagingRoot p) w' ∧ w'.files = written := by
  have harchive : Session.archive (s.bundleDir p) (slotArchive s.stagingRoot p)
      { w with files := made } = .ok () { w with files := written } := by
    refine archive_eq_ok.2 ⟨_, { w with files := made }, { w with files := emptied }, entries, hroot,
      ?_, onFiles_done hempty, hentries, onFiles_done hwrite⟩
    unfold makeParents
    rw [hparent]
    exact onFiles_done hagain
  unfold archiveBundle
  rw [if_neg hhost]
  exact ⟨_, bind_eq_ok.2 ⟨(), _, onFiles_done hslot, bind_eq_ok.2 ⟨(), _, harchive,
    bind_eq_ok.2 ⟨(), _, rfl, rfl⟩⟩⟩, rfl⟩

theorem nodeAt?_of_content {path : Text.Bytes} {fs : FileSystem} {held : Content}
    (h : FileSystem.content path fs = .ok held fs) :
    ∃ mode, fs.nodeAt? path true = some (.file held mode) := by
  rw [content_eq] at h
  unfold nodeAt?
  generalize fs.resolve path true = target at h
  rcases target with failure | ⟨l, node⟩ | ⟨d, name⟩
  · cases h
  · cases node with
    | file content mode =>
      cases h
      exact ⟨mode, rfl⟩
    | directory | link t => cases h
  · cases h

theorem isFile_of_content {path : Text.Bytes} {fs : FileSystem} {held : Content}
    (h : FileSystem.content path fs = .ok held fs) : fs.isFile path = true := by
  obtain ⟨mode, hnode⟩ := nodeAt?_of_content h
  unfold FileSystem.isFile
  rw [hnode]

theorem verify_of_content {held : Content} (archive : Path)
    (h : FileSystem.content (s.agentBinary p).bytes w.files = .ok held w.files) :
    ∃ a w', verify s archive p w = .ok a w' ∧ w'.files = w.files := by
  have hread : Session.read (s.agentBinary p) w = .ok held.toBytes w :=
    read_eq_ok.2 ⟨rfl, held, h, rfl⟩
  have hdigest : Session.digest (s.agentBinary p) w = .ok (Digest.ofFile held.toBytes) w :=
    bind_eq_ok.2 ⟨_, _, hread, rfl⟩
  have hthere : Session.isFile (s.agentBinary p) w = .ok true w := by
    rw [← isFile_of_content h]
    rfl
  unfold verify
  rw [bind_of_ok hthere]
  dsimp only
  rw [if_pos rfl, bind_of_ok hread, bind_of_ok hdigest]
  exact ⟨_, _, rfl, rfl⟩

end Packaging

end ReleaseTrain
