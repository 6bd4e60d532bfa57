import Mathlib
import ReleaseTrain.Proofs.PlatformStages
import ReleaseTrain.Proofs.StreamedDigest

namespace ReleaseTrain

open FileSystem Session Settings

variable {σ : Type} {w w' : World σ}

namespace Settings

variable {s : Settings} {cwd l : Location} {ps : List Platform} {p : Platform} {r : Path}

theorem Disjoint.outside_homes (h : s.Disjoint cwd) (hr : r ∈ s.roots) (hl : home cwd r p <+: l)
    (hp : p ∉ ps) : ∀ q ∈ ps, ∀ r' ∈ s.roots, ¬home cwd r' q <+: l := by
  intro q hq r' hr'
  have hne : p ≠ q := by
    rintro rfl
    exact hp hq
  exact ((h.apart_homes hr hr' (.inr hne)).beneath hl (List.prefix_refl _)).2

namespace Separate

variable (h : s.Separate cwd)
include h

theorem executable_outside_homes (hp : p ∉ ps) :
    ∀ q ∈ ps, ∀ r ∈ s.roots, ¬home cwd r q <+: s.executablePlace cwd p := by
  intro q hq r hr
  have hne : q ≠ p := by
    rintro rfl
    exact hp hq
  exact ((h.apart_agentDir hr (.inr hne)).beneath (List.prefix_refl _)
    (h.home_prefix_executablePlace p)).1

theorem apart_marker (hr : r ∈ s.roots) (p : Platform) :
    Apart (s.markerPlace cwd) (home cwd r p) := by
  rw [markerPlace_eq]
  by_cases hout : r = s.outputRoot
  · subst hout
    rw [home_eq]
    refine .of_ne (fun heq ↦ ?_) _
    have hid := Text.encode_inj.1 heq
    cases p <;> exact absurd hid (by decide)
  · exact (h.apart_output hr hout).symm.beneath (List.prefix_append _ _) (root_prefix_home cwd r p)

end Separate

end Settings

namespace Packaging

variable {env : Surroundings σ} {s : Settings} {cwd : Location} {v : Version} {p : Platform}
  {ps : List Platform} {fs fs' : FileSystem} {a : Artifact} {artifacts : List Artifact}

/-- An artifact says of its executable what is in the file, and both paths are the platform's. -/
structure Describes (s : Settings) (fs : FileSystem) (a : Artifact) : Prop where
  executable : a.executable = s.agentBinary a.platform
  companionArchive : a.companionArchive = slotArchive s.stagingRoot a.platform
  held : ∃ held, FileSystem.content (s.agentBinary a.platform).bytes fs = .ok held fs ∧
    a.size = held.toBytes.length ∧ a.sha256 = SecureHash.text held.toBytes

theorem content_kept {path : Path} {l : Location} {r : Path} {held : Content}
    (hn : Names cwd path.bytes l) (hne : path.bytes ≠ []) (hr : r ∈ s.roots)
    (hl : home cwd r p <+: l) (hready : s.Ready cwd fs) (hready' : s.Ready cwd fs')
    (hstays : ∀ node, fs.get? l = some node → fs'.get? l = some node)
    (h : FileSystem.content path.bytes fs = .ok held fs) :
    FileSystem.content path.bytes fs' = .ok held fs' := by
  have hlinks := hready.direct hr ((root_prefix_home cwd r p).trans hl)
  obtain ⟨-, mode, hnode⟩ := content_plain hready.wellFormed (hready.names hn) hlinks hne h
  exact content_stays hready.wellFormed hready'.wellFormed
    (hready'.workingDirectory.trans hready.workingDirectory.symm) (hready.names hn) hlinks hnode
    (hstays _ hnode) h

theorem Describes.kept (h : Describes s fs a) (hsep : s.Separate cwd) (hready : s.Ready cwd fs)
    (hready' : s.Ready cwd fs') (hstays : ∀ node,
      fs.get? (s.executablePlace cwd a.platform) = some node →
        fs'.get? (s.executablePlace cwd a.platform) = some node) :
    Describes s fs' a := by
  obtain ⟨held, hheld, hsize, hsha⟩ := h.held
  refine ⟨h.executable, h.companionArchive, held, ?_, hsize, hsha⟩
  exact content_kept (hsep.names_executable a.platform)
    (Path.bytes_join_ne_nil (a.platform.isPlainName_binaryName hsep.agentName) _) s.outputRoot_mem
    (hsep.home_prefix_executablePlace a.platform) hready hready' hstays hheld

theorem companion_within (hconfined : s.Confined cwd v env) (hready : s.Ready cwd w.files)
    (h : publishCompanion env s v p w = .ok () w') :
    Within (home cwd s.companionRoot p) w.files w'.files := by
  rw [(ran_of_demand h).files]
  exact hconfined.companion p w.files w.tools hready

theorem agent_within (hconfined : s.Confined cwd v env) (hready : s.Ready cwd w.files)
    (h : publishAgent env s v (slotArchive s.stagingRoot p) p w = .ok () w') :
    Within (home cwd s.outputRoot p) w.files w'.files := by
  rw [(ran_of_demand h).files]
  exact hconfined.agent p w.files w.tools hready

theorem packagePlatform_account (hsep : s.Separate cwd) (hconfined : s.Confined cwd v env)
    (hready : s.Ready cwd w.files) (h : packagePlatform env s v p w = .ok a w') :
    s.Kept cwd [p] w.files w'.files ∧ a.platform = p ∧ Describes s w'.files a := by
  obtain ⟨cleared, left, archive, archived, published, hbegin, hcompanion, harchive, hagent,
    hverify⟩ := packagePlatform_ok h
  have hp : p ∈ [p] := List.mem_singleton_self p
  have hcleared := kept_of_begin hsep hready hbegin
  have hleft := hcleared.trans (.of_within s.companionRoot_mem hp (List.prefix_refl _)
    (companion_within hconfined (hcleared.ready hready) hcompanion))
  obtain ⟨rfl, hslot⟩ := archiveBundle_within hsep hconfined (hleft.ready hready) harchive
  have harchived := hleft.trans (.of_within s.stagingRoot_mem hp (List.prefix_refl _) hslot)
  have hpublished := harchived.trans (.of_within s.outputRoot_mem hp (List.prefix_refl _)
    (agent_within hconfined (harchived.ready hready) hagent))
  obtain ⟨hfiles, -, held, hheld, rfl⟩ := verify_ok hverify
  rw [hfiles]
  exact ⟨hpublished, rfl, rfl, rfl, held, hheld, rfl, Digest.ofFile_eq_text held.toBytes⟩

theorem packagePlatform_archived (hdisjoint : s.Disjoint cwd) (hconfined : s.Confined cwd v env)
    (hready : s.Ready cwd w.files) (hhost : ¬(s.host = .macos ∧ p.isMac))
    (h : packagePlatform env s v p w = .ok a w') :
    ∃ cleared left entries, beginPlatform s p w = .ok () cleared ∧
      publishCompanion env s v p cleared = .ok () left ∧
      left.files.Holds (home cwd s.companionRoot p) entries ∧
      FileSystem.content (slotArchive s.stagingRoot p).bytes w'.files =
        .ok (.archive entries) w'.files := by
  obtain ⟨cleared, left, archive, archived, published, hbegin, hcompanion, harchive, hagent,
    hverify⟩ := packagePlatform_ok h
  have hsep := hdisjoint.toSeparate
  have hcleared := (kept_of_begin hsep hready hbegin).ready hready
  have hleft := hcleared.within (companion_within hconfined hcleared hcompanion)
  obtain ⟨-, hholds, hcontent⟩ := archiveBundle_inProcess hdisjoint hleft hhost harchive
  obtain ⟨rfl, -, hslot⟩ := archiveBundle_slot hsep hleft hhost harchive
  have harchived := hleft.within hslot
  have hpublish := agent_within hconfined harchived hagent
  have hapart := (hsep.apart_agentDir (p := p) (q := p) s.stagingRoot_mem
    (.inl hsep.stagingRoot_ne)).symm
  rw [(verify_ok hverify).1]
  refine ⟨cleared, left, _, hbegin, hcompanion, hholds, ?_⟩
  exact content_kept (hsep.names_archive p) (Path.bytes_join_ne_nil isPlainName_archive _)
    s.stagingRoot_mem (s.home_prefix_archivePlace cwd p) harchived (harchived.within hpublish)
    (fun node ↦ hpublish.stays
      (hapart.beneath (List.prefix_refl _) (s.home_prefix_archivePlace cwd p)).1) hcontent

theorem packageEach_account (hsep : s.Separate cwd) (hconfined : s.Confined cwd v env)
    (hps : ps.Nodup) (hready : s.Ready cwd w.files)
    (h : packageEach env s v ps w = .ok artifacts w') :
    s.Kept cwd ps w.files w'.files ∧ artifacts.map Artifact.platform = ps ∧
      ∀ a ∈ artifacts, Describes s w'.files a := by
  induction ps generalizing w artifacts with
  | nil =>
    cases h
    exact ⟨.refl s cwd [] _, rfl, by simp⟩
  | cons p ps ih =>
    obtain ⟨hp, hps⟩ := List.nodup_cons.1 hps
    obtain ⟨first, w₁, hfirst, h⟩ := bind_eq_ok.1 h
    obtain ⟨others, w₂, hothers, h⟩ := bind_eq_ok.1 h
    cases h
    obtain ⟨hkept, hplatform, hdescribes⟩ := packagePlatform_account hsep hconfined hready hfirst
    have hready₁ := hkept.ready hready
    obtain ⟨hkept', hplatforms, hdescribed⟩ := ih hps hready₁ hothers
    have hready' := hkept'.ready hready₁
    refine ⟨(hkept.mono (by simp)).trans (hkept'.mono (by simp)), ?_, ?_⟩
    · rw [List.map_cons, hplatform, hplatforms]
    · intro a ha
      rcases List.mem_cons.1 ha with rfl | ha
      · -- The first artifact was measured before the others were made.
        refine hdescribes.kept hsep hready₁ hready' fun node ↦ hkept'.stays _ node ?_
        rw [hplatform]
        exact hsep.executable_outside_homes hp
      · exact hdescribed a ha

theorem packageEach_append {before later : List Platform}
    (h : packageEach env s v (before ++ later) w = .ok artifacts w') :
    ∃ first w₁ others, packageEach env s v before w = .ok first w₁ ∧
      packageEach env s v later w₁ = .ok others w' ∧ artifacts = first ++ others := by
  induction before generalizing w artifacts with
  | nil => exact ⟨[], w, artifacts, rfl, h, rfl⟩
  | cons p before ih =>
    obtain ⟨a, w₁, ha, h⟩ := bind_eq_ok.1 h
    obtain ⟨rest, w₂, hrest, h⟩ := bind_eq_ok.1 h
    cases h
    obtain ⟨first, w₃, others, hfirst, hothers, rfl⟩ := ih hrest
    exact ⟨a :: first, w₃, others,
      bind_eq_ok.2 ⟨a, w₁, ha, bind_eq_ok.2 ⟨first, w₃, hfirst, rfl⟩⟩, hothers, rfl⟩

/-- At the end of the loop an archive made in-process still holds the tree that its platform's
companion publish left. -/
theorem packageEach_archived {before later : List Platform} (hdisjoint : s.Disjoint cwd)
    (hconfined : s.Confined cwd v env) (hps : (before ++ p :: later).Nodup)
    (hready : s.Ready cwd w.files) (hhost : ¬(s.host = .macos ∧ p.isMac))
    (h : packageEach env s v (before ++ p :: later) w = .ok artifacts w') :
    ∃ first reached cleared left entries, packageEach env s v before w = .ok first reached ∧
      beginPlatform s p reached = .ok () cleared ∧
      publishCompanion env s v p cleared = .ok () left ∧
      left.files.Holds (home cwd s.companionRoot p) entries ∧
      FileSystem.content (slotArchive s.stagingRoot p).bytes w'.files =
        .ok (.archive entries) w'.files := by
  obtain ⟨first, reached, others, hbefore, hothers, -⟩ := packageEach_append h
  obtain ⟨a, done, hp, hothers⟩ := bind_eq_ok.1 hothers
  obtain ⟨rest, w₁, hlater, hreturn⟩ := bind_eq_ok.1 hothers
  cases hreturn
  obtain ⟨hbeforeNodup, hrest, -⟩ := List.nodup_append.1 hps
  obtain ⟨hpLater, hlaterNodup⟩ := List.nodup_cons.1 hrest
  have hsep := hdisjoint.toSeparate
  have hkept := (packageEach_account hsep hconfined hbeforeNodup hready hbefore).1
  have hreached := hkept.ready hready
  have hdone := (packagePlatform_account hsep hconfined hreached hp).1.ready hreached
  have hkept' := (packageEach_account hsep hconfined hlaterNodup hdone hlater).1
  obtain ⟨cleared, left, entries, hbegin, hcompanion, hholds, hcontent⟩ :=
    packagePlatform_archived hdisjoint hconfined hreached hhost hp
  have harchive := s.home_prefix_archivePlace cwd p
  refine ⟨first, reached, cleared, left, entries, hbefore, hbegin, hcompanion, hholds, ?_⟩
  exact content_kept (hsep.names_archive p) (Path.bytes_join_ne_nil isPlainName_archive _)
    s.stagingRoot_mem harchive hdone (hkept'.ready hdone) (fun node ↦
      hkept'.stays _ node (hdisjoint.outside_homes s.stagingRoot_mem harchive hpLater)) hcontent

end Packaging

namespace Session

variable {α β : Type} {m : Session σ α} {f : α → Session σ β}

/-- Wherever the session ends, it took things away and did nothing else to the files, and the tools
are as they were. -/
def Shrinks (m : Session σ α) : Prop :=
  ∀ w, Shrunk w.files (after m w).files ∧ (after m w).tools = w.tools

namespace Shrinks

theorem of_ok (h : Shrinks m) {a : α} (hm : m w = .ok a w') :
    Shrunk w.files w'.files ∧ w'.tools = w.tools := by
  have hw := h w
  rwa [after_of_ok hm] at hw

theorem pure (a : α) : Shrinks (Pure.pure a : Session σ α) := fun w ↦ ⟨.refl w.files, rfl⟩

theorem throw (e : ReleaseError) : Shrinks (MonadExcept.throw e : Session σ α) :=
  fun w ↦ ⟨.refl w.files, rfl⟩

theorem report (r : Report) : Shrinks (Session.report r : Session σ Unit) :=
  fun w ↦ ⟨.refl w.files, rfl⟩

theorem files : Shrinks (Session.files : Session σ FileSystem) := fun w ↦ ⟨.refl w.files, rfl⟩

theorem bind (hm : Shrinks m) (hf : ∀ a, Shrinks (f a)) : Shrinks (m >>= f) := by
  intro w
  have hw := hm w
  cases hfirst : m w with
  | ok a w₁ =>
    rw [after_of_ok hfirst] at hw
    obtain ⟨hfiles, htools⟩ := hf a w₁
    rw [after_bind_of_ok hfirst]
    exact ⟨hw.1.trans hfiles, htools.trans hw.2⟩
  | error e w₁ =>
    rw [after_of_error hfirst] at hw
    rw [after_of_error (bind_of_error hfirst)]
    exact hw

theorem onFiles {cause : FileSystem.Failure → ReleaseError} {action : FileSystem.Action α}
    (h : ∀ fs, Shrunk fs (remaining (action fs))) :
    Shrinks (Session.onFiles cause action : Session σ α) := by
  intro w
  refine ⟨files_after_onFiles ▸ h w.files, ?_⟩
  unfold after Session.onFiles
  cases action w.files <;> rfl

theorem removeDirectory (path : Path) :
    Shrinks (Session.removeDirectory path : Session σ Unit) := by
  refine onFiles fun fs ↦ ?_
  rw [remaining_ifAny]
  exact shrunk_removeDirectory fs path.bytes

theorem removeEach (path : Path) (entries : List (Location × Node)) :
    Shrinks (Session.removeEach path entries : Session σ Unit) := by
  induction entries with
  | nil => exact pure ()
  | cons e entries ih => exact (onFiles fun fs ↦ shrunk_removeAt fs e.1).bind fun _ ↦ ih

theorem emptyDirectory (path : Path) : Shrinks (Session.emptyDirectory path : Session σ Unit) := by
  refine files.bind fun fs ↦ ?_
  cases fs.listDirectory path.bytes with
  | error failure =>
    cases failure
    case notFound => exact pure ()
    all_goals exact throw _
  | ok entries => exact removeEach path entries

end Shrinks

end Session

namespace Packaging

variable {env : Surroundings σ} {s : Settings} {cwd : Location} {v : Version} {p : Platform}
  {ps : List Platform} {artifacts : List Artifact}

theorem shrinks_cleanExtra (dirs : List Path) : Shrinks (cleanExtra dirs : Session σ Unit) := by
  induction dirs with
  | nil => exact .pure ()
  | cons dir dirs ih =>
    exact (Shrinks.report _).bind fun _ ↦ (Shrinks.removeDirectory dir).bind fun _ ↦ ih

/-- What a cleaning does after it removed the output root. -/
def cleanOthers (s : Settings) : Session σ Unit := do
  clearSlots s.stagingRoot
  removeDirectory s.companionRoot
  cleanExtra s.extraCleanDirs
  report (.success "Clean complete")

theorem clean_eq (s : Settings) : (clean s : Session σ Unit) = (do
    report (.progress "Cleaning previous build output...")
    removeDirectory s.outputRoot
    cleanOthers s) := rfl

theorem shrinks_cleanOthers (s : Settings) : Shrinks (cleanOthers s : Session σ Unit) :=
  (Shrinks.emptyDirectory s.stagingRoot).bind fun _ ↦ (Shrinks.removeDirectory _).bind fun _ ↦
    (shrinks_cleanExtra _).bind fun _ ↦ .report _

theorem shrinks_clean (s : Settings) : Shrinks (clean s : Session σ Unit) :=
  (Shrinks.report _).bind fun _ ↦ (Shrinks.removeDirectory _).bind fun _ ↦ shrinks_cleanOthers s

/-- What packaging begins with: the cleaning, if it is wanted. -/
def cleanIf (s : Settings) : Session σ Unit := if s.clean then clean s else pure ()

theorem shrinks_cleanIf (s : Settings) : Shrinks (cleanIf s : Session σ Unit) := by
  unfold cleanIf
  cases s.clean with
  | true => exact shrinks_clean s
  | false => exact .pure ()

theorem shrunk_of_cleanIf (h : cleanIf s w = .ok () w') :
    Shrunk w.files w'.files ∧ w'.tools = w.tools := (shrinks_cleanIf s).of_ok h

theorem package_ok {made : PackageReport} (h : package env s ps v w = .ok made w') :
    ∃ cleaned packaged artifacts, cleanIf s w = .ok () cleaned ∧
      packageEach env s v ps cleaned = .ok artifacts packaged ∧
      markVersion s v packaged = .ok () w' ∧ made = ⟨v, artifacts, s.versionMarker⟩ := by
  rw [package_eq] at h
  obtain ⟨_, cleaned, hclean, h⟩ := bind_eq_ok.1 h
  obtain ⟨artifacts, packaged, heach, h⟩ := bind_eq_ok.1 h
  obtain ⟨_, marked, hmark, h⟩ := bind_eq_ok.1 h
  cases h
  exact ⟨cleaned, packaged, artifacts, hclean, heach, hmark, rfl⟩

theorem markVersion_of_write (written : Content → FileSystem)
    (hparent : s.versionMarker.parent? = some s.outputRoot)
    (hroot : FileSystem.makeDirectories s.outputRoot.bytes w.files = .ok () w.files)
    (hwrite : ∀ c, FileSystem.write s.versionMarker.bytes c w.files = .ok () (written c)) :
    ∃ w', markVersion s v w = .ok () w' ∧ w'.files = written (.bytes (Text.encode v.text)) := by
  have hparents : makeParents s.versionMarker w = .ok () w := by
    unfold makeParents
    rw [hparent]
    exact onFiles_eq_ok.2 ⟨hroot, rfl⟩
  have htext : writeText s.versionMarker v.text w =
      .ok () { w with files := written (.bytes (Text.encode v.text)) } :=
    bind_eq_ok.2 ⟨(), w, hparents, onFiles_done (hwrite _)⟩
  exact ⟨_, bind_eq_ok.2 ⟨(), _, htext, rfl⟩, rfl⟩

theorem packagePlatform_of_stages {cleared left archived published : World σ} {archive : Path}
    {held : Content} (hbegin : beginPlatform s p w = .ok () cleared)
    (hcompanion : publishCompanion env s v p cleared = .ok () left)
    (harchive : archiveBundle env s.stagingRoot p (s.bundleDir p) s.host left =
      .ok archive archived)
    (hagent : publishAgent env s v archive p archived = .ok () published)
    (hcontent : FileSystem.content (s.agentBinary p).bytes published.files =
      .ok held published.files) :
    ∃ a w', packagePlatform env s v p w = .ok a w' ∧ w'.files = published.files := by
  obtain ⟨a, w', hverify, hw'⟩ := verify_of_content archive hcontent
  obtain ⟨_, w₀, hheading, hclear⟩ := bind_eq_ok.1 hbegin
  exact ⟨a, w', bind_eq_ok.2 ⟨_, w₀, hheading, bind_eq_ok.2 ⟨_, cleared, hclear, bind_eq_ok.2
    ⟨_, left, hcompanion, bind_eq_ok.2 ⟨_, archived, harchive, bind_eq_ok.2
      ⟨_, published, hagent, hverify⟩⟩⟩⟩⟩, hw'⟩

theorem package_of_platform {packaged : World σ} {a : Artifact} (hclean : s.clean = false)
    (hplatform : packagePlatform env s v p w = .ok a packaged)
    (hmark : markVersion s v packaged = .ok () w') :
    package env s [p] v w = .ok ⟨v, [a], s.versionMarker⟩ w' := by
  have hskip : cleanIf s w = .ok () w := by
    rw [cleanIf, hclean]
    rfl
  rw [package_eq]
  exact bind_eq_ok.2 ⟨(), w, hskip, bind_eq_ok.2 ⟨[a], packaged,
    bind_eq_ok.2 ⟨a, packaged, hplatform, rfl⟩, bind_eq_ok.2 ⟨(), w', hmark, rfl⟩⟩⟩

theorem root_prefix_markerPlace (s : Settings) (cwd : Location) :
    placeOf cwd s.outputRoot.bytes <+: s.markerPlace cwd := by
  rw [markerPlace_eq]
  exact List.prefix_append _ _

theorem markerPlace_ne_outputPlace (s : Settings) (cwd : Location) :
    s.markerPlace cwd ≠ placeOf cwd s.outputRoot.bytes := by
  rw [markerPlace_eq]
  exact fun heq ↦ by simpa using congrArg List.length heq

theorem grown_markerParents (hsep : s.Separate cwd) (hready : s.Ready cwd w.files) :
    Grown (placeOf cwd s.outputRoot.bytes) w.files
      (after (makeParents s.versionMarker) w).files := by
  have hgrown := grown_makeParents hready.wellFormed (hready.names hsep.names_marker)
    (by simp [versionMarker, Path.plainSteps_join isPlainName_marker])
    (hready.direct s.outputRoot_mem (root_prefix_markerPlace s cwd))
  rwa [markerPlace_eq, List.dropLast_concat] at hgrown

theorem markVersion_plain (hsep : s.Separate cwd) (hready : s.Ready cwd w.files)
    (h : markVersion s v w = .ok () w') : s.markerPlace cwd ≠ [] ∧ ∃ grown mode,
      Grown (placeOf cwd s.outputRoot.bytes) w.files grown ∧
      w'.files = grown.set (s.markerPlace cwd) (.file (.bytes (Text.encode v.text)) mode) ∧
      w'.files.WellFormed := by
  obtain ⟨_, w₁, hwrite, hreport⟩ := bind_eq_ok.1 h
  obtain ⟨_, w₂, hparents, hwrite⟩ := bind_eq_ok.1 hwrite
  rw [(report_eq_ok hreport).1]
  obtain ⟨hwrite, -⟩ := onFiles_ok hwrite
  have hgrown := grown_markerParents hsep hready
  rw [after_of_ok hparents] at hgrown
  have hready₂ := hready.within (Within.of_grown hgrown)
  obtain ⟨htop, ⟨mode, hfiles⟩, hfs⟩ := write_plain hready₂.wellFormed
    (hready₂.names hsep.names_marker)
    (hready₂.direct s.outputRoot_mem (root_prefix_markerPlace s cwd))
    (Path.bytes_join_ne_nil isPlainName_marker _) hwrite
  exact ⟨htop, w₂.files, mode, hgrown, hfiles, hfs⟩

theorem markVersion_within (hsep : s.Separate cwd) (hready : s.Ready cwd w.files)
    (h : markVersion s v w = .ok () w') : Within (s.markerPlace cwd) w.files w'.files := by
  obtain ⟨htop, grown, mode, hgrown, hfiles, hfs⟩ := markVersion_plain hsep hready h
  rw [hfiles] at hfs ⊢
  exact (Within.of_grown (hgrown.mono (root_prefix_markerPlace s cwd))).trans (.set htop hfs)

/-- Packaging up to the end of a platform's companion publish, when the platforms before it are
done. -/
def untilCompanion (env : Surroundings σ) (s : Settings) (v : Version) (before : List Platform)
    (p : Platform) : Session σ Unit := do
  cleanIf s
  let _ ← packageEach env s v before
  beginPlatform s p
  publishCompanion env s v p

end Packaging

namespace Rehearsal

variable {fs : FileSystem} {r n file : Name} {held : Content}

/-- A directory two names from the root, made anew with one file in it. -/
def lay (r n file : Name) (held : Content) (fs : FileSystem) : FileSystem :=
  (((fs.removeTree [r, n]).set [r] .directory).set [r, n] .directory).set [r, n, file]
    (.file held 0o755)

theorem get?_lay (l : Location) : (lay r n file held fs).get? l =
    if l = [r, n, file] then some (.file held 0o755)
    else if l = [r, n] ∨ l = [r] then some .directory
    else (fs.removeTree [r, n]).get? l := by
  unfold lay
  by_cases hfile : l = [r, n, file]
  · rw [if_pos hfile, hfile, get?_set_self _ (by simp)]
  rw [if_neg hfile, get?_set_of_ne _ hfile]
  by_cases hn : l = [r, n]
  · rw [if_pos (.inl hn), hn, get?_set_self _ (by simp)]
  rw [get?_set_of_ne _ hn]
  by_cases hr : l = [r]
  · rw [if_pos (.inr hr), hr, get?_set_self _ (by simp)]
  · rw [if_neg (by simp [hn, hr]), get?_set_of_ne _ hr]

theorem wellFormed_lay (hfs : fs.WellFormed) : (lay r n file held fs).WellFormed := by
  have hfirst : ((fs.removeTree [r, n]).set ([] ++ [r]) .directory).WellFormed :=
    (hfs.removeTree [r, n]).set rfl (.inl rfl)
  have hsecond : (FileSystem.set _ ([r] ++ [n]) .directory).WellFormed :=
    hfirst.set (get?_set_self _ (by simp)) (.inl rfl)
  refine WellFormed.set (l := [r, n]) hsecond (get?_set_self _ (by simp)) (.inr ?_)
  rw [get?_set_of_ne _ (by simp), get?_set_of_ne _ (by simp),
    get?_removeTree_beneath (by simp) (by simp)]
  nofun

theorem within_lay (hr : fs.get? [r] = none ∨ fs.get? [r] = some .directory) :
    Within [r, n] fs (lay r n file held fs) := by
  have hremoved := Within.removeTree fs [r, n]
  refine ⟨wellFormed_lay, rfl, fun m target hget ↦ ?_, fun m hm ↦ ?_⟩
  · rw [get?_lay] at hget
    split at hget
    · cases hget
    split at hget
    · cases hget
    · exact hremoved.links m target hget
  · unfold Paved
    rw [get?_lay, if_neg (by rintro rfl; exact hm (by simp))]
    split
    next h =>
      obtain rfl | rfl := h
      · exact absurd (List.prefix_refl _) hm
      · obtain hnone | hthere := hr
        · exact .inr ⟨by simp, hnone, rfl⟩
        · exact .inl hthere.symm
    · exact .inl (get?_removeTree_outside hm)

/-- What a publish does that makes its output directory anew with one file in it. -/
def layOutput (file : Name) (held : Content) (command : Invocation) (fs : FileSystem) :
    FileSystem :=
  match placeOf [] (Text.encode ((command.flagValue? "-o").getD "")) with
  | [r, n] =>
    if fs.get? [r] = none ∨ fs.get? [r] = some .directory then lay r n file held fs else fs
  | _ => fs

/-- Tools of which every publish leaves one file. -/
def publishing (file : Name) (held : Content) : Surroundings Unit where
  execute _ command fs _ := ⟨.ok ⟨some 0⟩, [], layOutput file held command fs, (), []⟩
  interactive := false
  answer _ _ := (false, ())

theorem layOutput_of_no_flag {command : Invocation} (h : command.flagValue? "-o" = none) :
    layOutput file held command fs = fs := by
  unfold layOutput
  rw [h]
  rfl

section Output

variable {command : Invocation} {path : Path} (hflag : command.flagValue? "-o" = some path.text)
  (hplace : placeOf [] path.bytes = [r, n])
include hflag hplace

theorem layOutput_eq : layOutput file held command fs =
    if fs.get? [r] = none ∨ fs.get? [r] = some .directory then lay r n file held fs else fs := by
  unfold layOutput
  rw [hflag]
  change (match placeOf [] path.bytes with
    | [r, n] => _
    | _ => _) = _
  rw [hplace]

theorem within_layOutput : Within [r, n] fs (layOutput file held command fs) := by
  rw [layOutput_eq hflag hplace]
  split
  next hr => exact within_lay hr
  · exact .refl _ fs

end Output

def config : ProjectConfig where
  outputDir := "o"
  stagingDir := "s"
  companionOutputDir := "c"

def settings : Settings := .ofConfig config ⟨"/"⟩

def version : Version := ⟨"1", "2", "3", none⟩

theorem apart_roots_settings :
    settings.roots.Pairwise fun r r' ↦ Apart (placeOf [] r.bytes) (placeOf [] r'.bytes) := by
  have hplaces : settings.roots.map (fun r ↦ placeOf [] r.bytes) = [[[111]], [[115]], [[99]]] := by
    decide
  have hapart : (settings.roots.map fun r ↦ placeOf [] r.bytes).Pairwise Apart := by
    rw [hplaces]
    simp [Apart]
  exact List.pairwise_map.1 hapart

theorem disjoint_settings : settings.Disjoint [] :=
  .of_config rfl (by decide) ⟨by decide, by decide, by decide, by decide⟩ apart_roots_settings

theorem separate_settings : settings.Separate [] := disjoint_settings.toSeparate

theorem placeOf_bundleDir (p : Platform) :
    placeOf [] (settings.bundleDir p).bytes = [[99], Text.encode p.id] := home_eq [] _ p

theorem placeOf_agentDir (p : Platform) :
    placeOf [] (settings.agentDir p).bytes = [[111], Text.encode p.id] := home_eq [] _ p

theorem flagValue?_companion {v : Version} (p : Platform) :
    (companionCommand settings p v).flagValue? "-o" = some (settings.bundleDir p).text := by
  cases p <;> rfl

theorem flagValue?_agent {v : Version} (p : Platform) :
    (agentCommand settings p v (slotArchive settings.stagingRoot p)).flagValue? "-o" =
      some (settings.agentDir p).text := by
  cases p <;> rfl

theorem confined_publishing (file : Name) (held : Content) :
    settings.Confined [] version (publishing file held) := by
  refine ⟨fun p fs tools _ ↦ ?_, fun p fs tools _ ↦ ?_, fun p fs tools _ ↦ ?_⟩
  · rw [placeOf_bundleDir]
    exact within_layOutput (flagValue?_companion p) (placeOf_bundleDir p)
  · rw [placeOf_agentDir]
    exact within_layOutput (flagValue?_agent p) (placeOf_agentDir p)
  · have hnone : layOutput file held
        (dittoCommand (settings.bundleDir p) (slotArchive settings.stagingRoot p)) fs = fs :=
      layOutput_of_no_flag (by cases p <;> rfl)
    change Within _ fs (layOutput file held _ fs)
    rw [hnone]
    exact .refl _ fs

/-- The bytes of `linux-x64`, of `agent`, of `companion.zip` and of `version.txt`. -/
def linux : Name := [108, 105, 110, 117, 120, 45, 120, 54, 52]

def agent : Name := [97, 103, 101, 110, 116]

def zip : Name := [99, 111, 109, 112, 97, 110, 105, 111, 110, 46, 122, 105, 112]

def marker : Name := [118, 101, 114, 115, 105, 111, 110, 46, 116, 120, 116]

theorem bytes_slot :
    (slot settings.stagingRoot .linuxX64).bytes = joinNames true [[115], linux] := by
  decide

theorem bytes_archive :
    (slotArchive settings.stagingRoot .linuxX64).bytes = joinNames true [[115], linux, zip] := by
  decide

theorem bytes_bundle : (settings.bundleDir .linuxX64).bytes = joinNames true [[99], linux] := by
  decide

theorem bytes_executable :
    (settings.agentBinary .linuxX64).bytes = joinNames true [[111], linux, agent] := by
  decide

theorem bytes_marker : settings.versionMarker.bytes = joinNames true [[111], marker] := by
  decide

def binary : Content := .bytes [1]

/-- The disk when the companion's publish is started, whatever an earlier run left. -/
def cleared : FileSystem where
  entries := [([[111], linux], .directory), ([[115], linux], .directory), ([[111]], .directory),
    ([[115]], .directory), ([[99]], .directory)]

/-- A disk with nothing in the output root. -/
def bare : FileSystem where
  entries := [([[115], linux], .directory), ([[111]], .directory), ([[115]], .directory),
    ([[99]], .directory)]

/-- A disk with an executable, an archive and a bundle of an earlier version. -/
def stale : FileSystem where
  entries := ([[111], linux, agent], .file (.bytes [0]) 0o755) ::
    ([[115], linux, zip], .file (.archive []) 0o644) ::
    ([[99], linux, agent], .file (.bytes [0]) 0o755) :: ([[99], linux], .directory) ::
    cleared.entries

/-- The disk after the companion's publish, after its archive and after the agent's publish. -/
def left : FileSystem := lay [99] linux agent binary cleared

def archived : FileSystem :=
  (left.set [[115], linux, zip] (.file (.archive []) defaultMode)).set [[115], linux, zip]
    (.file (.archive [.file "agent" 0o755 [1]]) defaultMode)

def published : FileSystem := lay [111] linux agent binary archived

/-- The disk when the version is marked. -/
def marked : FileSystem := published.set [[111], marker]
  (.file (.bytes (Text.encode version.text)) defaultMode)

theorem ready_disk (h : fs = cleared ∨ fs = stale) : settings.Ready [] fs := by
  have hlinks : ∀ e ∈ fs.entries, ∀ target, e.2 ≠ .link target := by
    obtain rfl | rfl := h <;> simp [cleared, stale]
  have hwellFormed : fs.WellFormed := by
    obtain rfl | rfl := h <;> exact .of_entries (by decide) (by decide)
  refine ⟨hwellFormed, ?_, fun r _ ↦ .of_entries hlinks _⟩
  obtain rfl | rfl := h <;> rfl

section Run

open Packaging

variable {w : World Unit}

theorem begin_done (hw : w.files = cleared ∨ w.files = stale) :
    ∃ w', beginPlatform settings .linuxX64 w = .ok () w' ∧ w'.files = cleared := by
  obtain ⟨fs₁, fs₂, h₁, h₂, h₃⟩ : ∃ fs₁ fs₂,
      ifAny (FileSystem.removeFile (slotArchive settings.stagingRoot .linuxX64).bytes) w.files =
        .ok () fs₁ ∧
      ifAny (FileSystem.removeDirectory (settings.bundleDir .linuxX64).bytes) fs₁ = .ok () fs₂ ∧
      ifAny (FileSystem.removeFile (settings.agentBinary .linuxX64).bytes) fs₂ =
        .ok () cleared := by
    rw [bytes_archive, bytes_bundle, bytes_executable]
    obtain hw | hw := hw
    · rw [hw]
      exact ⟨cleared, cleared, by cbv, by cbv, by cbv⟩
    · rw [hw]
      exact ⟨stale.removeTree [[115], linux, zip],
        (stale.removeTree [[115], linux, zip]).removeTree [[99], linux], by cbv, by cbv, by cbv⟩
  exact begin_of_removals h₁ h₂ h₃

theorem companion_lays (p : Platform) (hroot : w.files.get? [[99]] = some .directory) :
    ∃ w', publishCompanion (publishing agent binary) settings version p w = .ok () w' ∧
      w'.files = lay [99] (Text.encode p.id) agent binary w.files := by
  have hfiles : layOutput agent binary (companionCommand settings p version) w.files =
      lay [99] (Text.encode p.id) agent binary w.files := by
    rw [layOutput_eq (flagValue?_companion p) (placeOf_bundleDir p), if_pos (.inr hroot)]
  exact ⟨_, rfl, hfiles⟩

theorem archive_done (hfs : fs = cleared ∨ fs = bare)
    (hw : w.files = lay [99] linux agent binary fs) :
    ∃ w', archiveBundle (publishing agent binary) settings.stagingRoot .linuxX64
      (settings.bundleDir .linuxX64) settings.host w =
        .ok (slotArchive settings.stagingRoot .linuxX64) w' ∧
      w'.files = ((lay [99] linux agent binary fs).set [[115], linux, zip]
        (.file (.archive []) defaultMode)).set [[115], linux, zip]
          (.file (.archive [.file "agent" 0o755 [1]]) defaultMode) := by
  refine archiveBundle_of_writes (lay [99] linux agent binary fs) ((lay [99] linux agent binary
    fs).set [[115], linux, zip] (.file (.archive []) defaultMode)) [[99], linux]
    [.file "agent" 0o755 [1]] (by decide) (by decide) ?_ ?_ ?_ ?_ ?_ ?_
  · rw [bytes_slot, hw]
    obtain rfl | rfl := hfs <;> cbv
  · rw [bytes_bundle]
    obtain rfl | rfl := hfs <;> cbv
  · rw [bytes_slot]
    obtain rfl | rfl := hfs <;> cbv
  · rw [bytes_archive]
    obtain rfl | rfl := hfs <;> cbv
  · obtain rfl | rfl := hfs <;> cbv
  · rw [bytes_archive]
    obtain rfl | rfl := hfs <;> cbv

theorem agent_lays (p : Platform) (hroot : w.files.get? [[111]] = some .directory) :
    ∃ w', publishAgent (publishing agent binary) settings version
      (slotArchive settings.stagingRoot p) p w = .ok () w' ∧
        w'.files = lay [111] (Text.encode p.id) agent binary w.files := by
  have hfiles : layOutput agent binary (agentCommand settings p version
      (slotArchive settings.stagingRoot p)) w.files =
        lay [111] (Text.encode p.id) agent binary w.files := by
    rw [layOutput_eq (flagValue?_agent p) (placeOf_agentDir p), if_pos (.inr hroot)]
  exact ⟨_, rfl, hfiles⟩

theorem mark_done (hw : w.files = published) :
    ∃ w', markVersion settings version w = .ok () w' ∧ w'.files = marked := by
  refine markVersion_of_write (fun c ↦ published.set [[111], marker] (.file c defaultMode))
    (by decide) ?_ fun c ↦ ?_
  · rw [show settings.outputRoot.bytes = joinNames true [[111]] by decide, hw]
    cbv
  · rw [bytes_marker, hw]
    cbv

/-- What an earlier run left in the output root makes no difference once the platform is begun. -/
theorem platform_done {w₁ : World Unit} (hbegin : beginPlatform settings .linuxX64 w = .ok () w₁)
    (hw₁ : w₁.files = cleared ∨ w₁.files = bare) :
    ∃ a w', packagePlatform (publishing agent binary) settings version .linuxX64 w = .ok a w' ∧
      w'.files = published := by
  obtain ⟨w₂, hcompanion, hw₂⟩ := companion_lays (w := w₁) .linuxX64 (by
    obtain h | h := hw₁ <;> rw [h] <;> rfl)
  obtain ⟨w₃, harchive, hw₃⟩ := archive_done hw₁ hw₂
  obtain ⟨w₄, hagent, hw₄⟩ := agent_lays (w := w₃) .linuxX64 (by
    rw [hw₃]
    obtain h | h := hw₁ <;> rw [h] <;> rfl)
  have hpublished : w₄.files = published := by
    rw [hw₄, hw₃]
    obtain h | h := hw₁ <;> rw [h] <;> rfl
  have hcontent : FileSystem.content (settings.agentBinary .linuxX64).bytes w₄.files =
      .ok binary w₄.files := by
    rw [bytes_executable, hpublished]
    cbv
  obtain ⟨a, w₅, hplatform, hw₅⟩ :=
    packagePlatform_of_stages hbegin hcompanion harchive hagent hcontent
  exact ⟨a, w₅, hplatform, hw₅.trans hpublished⟩

theorem package_of_begin {w₁ : World Unit} (hbegin : beginPlatform settings .linuxX64 w = .ok () w₁)
    (hw₁ : w₁.files = cleared ∨ w₁.files = bare) : ∃ made w',
    package (publishing agent binary) settings [.linuxX64] version w = .ok made w' ∧
      w'.files = marked := by
  obtain ⟨a, w₂, hplatform, hw₂⟩ := platform_done hbegin hw₁
  obtain ⟨w₃, hmark, hw₃⟩ := mark_done hw₂
  exact ⟨⟨version, [a], settings.versionMarker⟩, w₃, package_of_platform rfl hplatform hmark, hw₃⟩

/-- The run ends well on a disk that is clean and on one that is not. -/
theorem package_leaves (hw : w.files = cleared ∨ w.files = stale) : ∃ made w',
    package (publishing agent binary) settings [.linuxX64] version w = .ok made w' ∧
      w'.files = marked := by
  obtain ⟨w₁, hbegin, hw₁⟩ := begin_done hw
  exact package_of_begin hbegin (.inl hw₁)

theorem package_done (hw : w.files = cleared ∨ w.files = stale) : ∃ made w',
    package (publishing agent binary) settings [.linuxX64] version w = .ok made w' := by
  obtain ⟨made, w', hpackage, -⟩ := package_leaves hw
  exact ⟨made, w', hpackage⟩

end Run

end Rehearsal

namespace Packaging

open Rehearsal

end Packaging

end ReleaseTrain
