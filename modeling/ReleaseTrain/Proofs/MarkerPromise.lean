import ReleaseTrain.Proofs.MarkerHistory

namespace ReleaseTrain

open FileSystem Session Settings

variable {σ : Type}

namespace Packaging

variable {s : Settings} {cwd : Location} {ps : List Platform} {fs : FileSystem}
  {runs : List (PackagingRun σ)} {selector : String}

/-- What the marker is to promise after several runs: each platform's executable is in place with
what a run of the marker's version published. -/
def MarkerSound (s : Settings) (ps : List Platform) (fs : FileSystem)
    (runs : List (PackagingRun σ)) : Prop :=
  ∀ v : Version, FileSystem.content s.versionMarker.bytes (filesAfter s ps fs runs) =
      .ok (.bytes (Text.encode v.text)) (filesAfter s ps fs runs) →
    ∀ p ∈ ps, ∃ before run later held, runs = before ++ run :: later ∧ run.version.text = v.text ∧
      run.Published s ps (filesAfter s ps fs before) p held ∧
      FileSystem.content (s.agentBinary p).bytes (filesAfter s ps fs runs) =
        .ok held (filesAfter s ps fs runs)

/-- The promise is kept on a disk and with tools as they should be as long as no run displaced a
platform's executable. -/
theorem marker_sound (hsep : s.Separate cwd) (hps : Platform.resolve selector s.host = .ok ps)
    (hready : s.Ready cwd fs)
    (hempty : ∀ l, placeOf cwd s.outputRoot.bytes <+: l → l ≠ placeOf cwd s.outputRoot.bytes →
      fs.get? l = none)
    (hconfined : ∀ run ∈ runs, s.Confined cwd run.version run.env)
    (hkept : ∀ before run later, runs = before ++ run :: later → ∀ p ∈ ps,
      ¬run.Displaces s ps (filesAfter s ps fs before) p) : MarkerSound s ps fs runs := by
  intro v hcontent p hp
  have hleft : s.Ready cwd (filesAfter s ps fs runs) := ready_filesAfter hsep hready hconfined
  obtain ⟨-, mode, hmarker⟩ := content_plain hleft.wellFormed (hleft.names hsep.names_marker)
    (hleft.direct s.outputRoot_mem (root_prefix_markerPlace s cwd))
    (Path.bytes_join_ne_nil isPlainName_marker _) hcontent
  have hthere : (filesAfter s ps fs runs).get? (s.markerPlace cwd) ≠ none := by
    rw [hmarker]
    nofun
  obtain ⟨before, run, later, rfl, hvouched⟩ := vouched_of_marker hsep
    (Platform.nodup_of_resolve hps) hready hempty hconfined hthere
  obtain ⟨mode', hmarked⟩ := hvouched.marked
  rw [hmarker] at hmarked
  obtain ⟨held, hpublished, hthere | ⟨mid, r, rest, rfl, hdisplaced⟩⟩ := hvouched.executable p hp
  · refine ⟨before, run, later, held, rfl, ?_, hpublished, hthere⟩
    injection hmarked with hfile
    injection hfile with hheld
    injection hheld with hbytes
    exact (Text.encode_inj.1 hbytes).symm
  · refine absurd hdisplaced ?_
    rw [← List.cons_append, ← List.append_assoc] at hkept
    exact hkept (before ++ run :: mid) r rest rfl p hp

/-- The commands write only beneath the directory that their `-o` names; directories may be made on
the way there. -/
structure Beneath (s : Settings) (cwd : Location) (v : Version) (env : Surroundings σ) : Prop where
  companion : ∀ p fs tools l, ¬placeOf cwd (s.bundleDir p).bytes <+: l →
    Paved (placeOf cwd (s.bundleDir p).bytes) fs
      (env.execute .captured (companionCommand s p v) fs tools).files l
  agent : ∀ p fs tools l, ¬placeOf cwd (s.agentDir p).bytes <+: l →
    Paved (placeOf cwd (s.agentDir p).bytes) fs
      (env.execute .captured (agentCommand s p v (slotArchive s.stagingRoot p)) fs tools).files l
  ditto : ∀ p fs tools, (env.execute .captured
    (dittoCommand (s.bundleDir p) (slotArchive s.stagingRoot p)) fs tools).files = fs

/-- The runs are for the platforms of one selector, nothing was in the output root before them, and
their commands write only where they are told to; yet the marker promises too much. -/
structure Misleads (s : Settings) (cwd : Location) (ps : List Platform) (fs : FileSystem)
    (runs : List (PackagingRun σ)) : Prop where
  resolved : ∃ selector, Platform.resolve selector s.host = .ok ps
  empty : ∀ l, placeOf cwd s.outputRoot.bytes <+: l → l ≠ placeOf cwd s.outputRoot.bytes →
    fs.get? l = none
  beneath : ∀ run ∈ runs, Beneath s cwd run.version run.env
  unsound : ¬MarkerSound s ps fs runs

theorem Published.of_single {env : Surroundings σ} {v : Version} {p : Platform} {held : Content}
    {w handed : World σ} (h : Published env s v [p] w p held) (hclean : s.clean = false)
    (hover : handOver env s v p w = .ok (slotArchive s.stagingRoot p) handed) :
    handed.files.nodeAt? (s.agentBinary p).bytes true = none ∧
      ∃ published, publishAgent env s v (slotArchive s.stagingRoot p) p handed = .ok () published ∧
        FileSystem.content (s.agentBinary p).bytes published.files = .ok held published.files := by
  obtain ⟨before, later, handed', published, hsplit, huntil, hnone, hagent, hheld⟩ := h
  have hbefore : before = [] := by
    cases before with
    | nil => rfl
    | cons q before => simp at hsplit
  have hskip : cleanIf s w = .ok () w := by
    rw [cleanIf, hclean]
    rfl
  have hreached : untilHandOver env s v [] p w = .ok (slotArchive s.stagingRoot p) handed :=
    bind_eq_ok.2 ⟨(), w, hskip, bind_eq_ok.2 ⟨[], w, rfl, hover⟩⟩
  rw [hbefore, hreached] at huntil
  cases huntil
  exact ⟨hnone, published, hagent, hheld⟩

end Packaging

namespace Rehearsal

open Packaging

variable {s : Settings} {fs : FileSystem} {file : Name} {held : Content} {code : Int}

def bundleOutput (file : Name) (held : Content) (command : Invocation) (fs : FileSystem) :
    FileSystem :=
  if command.flagValue? "-o" = some "/c/linux-x64" then layOutput file held command fs else fs

def bundling (file : Name) (held : Content) (code : Int) : Surroundings Unit where
  execute _ command fs _ := ⟨.ok ⟨some code⟩, [], bundleOutput file held command fs, (), []⟩
  interactive := false
  answer _ _ := (false, ())

theorem bundleOutput_eq {command : Invocation}
    (hflag : command.flagValue? "-o" = some "/c/linux-x64")
    (hroot : fs.get? [[99]] = some .directory) :
    bundleOutput file held command fs = lay [99] linux file held fs := by
  have hplace : placeOf [] (⟨"/c/linux-x64"⟩ : Path).bytes = [[99], linux] := by decide
  rw [bundleOutput, if_pos hflag, layOutput_eq hflag hplace, if_pos (.inr hroot)]

theorem within_bundleOutput {command : Invocation} {o : Location}
    (h : command.flagValue? "-o" = some "/c/linux-x64" → o = [[99], linux]) :
    Within o fs (bundleOutput file held command fs) := by
  unfold bundleOutput
  split
  next hflag =>
    have hplace : placeOf [] (⟨"/c/linux-x64"⟩ : Path).bytes = [[99], linux] := by decide
    rw [h hflag]
    exact within_layOutput hflag hplace
  · exact .refl _ fs

theorem bundling_in_bounds (hcompanion : ∀ p, (companionCommand s p version).flagValue? "-o" =
      some "/c/linux-x64" → placeOf [] (s.bundleDir p).bytes = [[99], linux])
    (hagent : ∀ p, (agentCommand s p version (slotArchive s.stagingRoot p)).flagValue? "-o" =
      some "/c/linux-x64" → placeOf [] (s.agentDir p).bytes = [[99], linux])
    (hditto : ∀ p, (dittoCommand (s.bundleDir p) (slotArchive s.stagingRoot p)).flagValue? "-o" =
      none) :
    s.Confined [] version (bundling file held code) ∧
      Beneath s [] version (bundling file held code) := by
  have hnothing (p : Platform) (fs : FileSystem) : bundleOutput file held
      (dittoCommand (s.bundleDir p) (slotArchive s.stagingRoot p)) fs = fs := by
    refine if_neg ?_
    rw [hditto p]
    nofun
  refine ⟨⟨fun p fs _ _ ↦ within_bundleOutput (hcompanion p),
    fun p fs _ _ ↦ within_bundleOutput (hagent p), fun p fs _ _ ↦ ?_⟩,
    fun p fs _ ↦ (within_bundleOutput (hcompanion p)).outside,
    fun p fs _ ↦ (within_bundleOutput (hagent p)).outside, fun p fs _ ↦ hnothing p fs⟩
  change Within _ fs (bundleOutput file held _ fs)
  rw [hnothing]
  exact .refl _ fs

def crossed : Settings :=
  .ofConfig { config with stagingDir := "o", agentName := "companion.zip" } ⟨"/"⟩

def overlapping : Settings := .ofConfig { config with outputDir := "c/linux-x64" } ⟨"/"⟩

def rooted : Settings :=
  .ofConfig { config with agentName := "/s/linux-x64/companion.zip" } ⟨"/"⟩

def zipped : Settings := .ofConfig { config with agentName := "companion.zip" } ⟨"/"⟩

theorem in_bounds (hs : s = crossed ∨ s = overlapping ∨ s = rooted ∨ s = zipped) :
    s.Confined [] version (bundling file held code) ∧
      Beneath s [] version (bundling file held code) := by
  rcases hs with rfl | rfl | rfl | rfl
  all_goals
    exact bundling_in_bounds (fun p ↦ by cases p <;> decide) (fun p ↦ by cases p <;> decide)
      fun p ↦ by cases p <;> rfl

def bundled : PackagingRun Unit := ⟨false, version, bundling agent binary 0, (), []⟩

def bundleEntries : List ArchiveEntry := [.file "agent" 0o755 [1]]

/-- A disk with an archive that was begun at a place, and with one that was written there. -/
def begunAt (made : FileSystem) (l : Location) : FileSystem :=
  made.set l (.file (.archive []) defaultMode)

def filledAt (made : FileSystem) (l : Location) : FileSystem :=
  (begunAt made l).set l (.file (.archive bundleEntries) defaultMode)

/-- How the archive comes to be where the executable is looked for: what such a run's operations on
files come to, one after the other. -/
structure Occupied (s : Settings) (fs made : FileSystem) (l : Location) : Prop where
  no_archive : ifAny (FileSystem.removeFile (slotArchive s.stagingRoot .linuxX64).bytes) fs =
    .ok () fs
  no_bundle : ifAny (FileSystem.removeDirectory (s.bundleDir .linuxX64).bytes) fs = .ok () fs
  no_executable : ifAny (FileSystem.removeFile (s.agentBinary .linuxX64).bytes) fs = .ok () fs
  slotted : FileSystem.makeDirectories (slot s.stagingRoot .linuxX64).bytes
    (lay [99] linux agent binary fs) = .ok () made
  bundle : made.directoryAt? (s.bundleDir .linuxX64).bytes = some [[99], linux]
  again : FileSystem.makeDirectories (slot s.stagingRoot .linuxX64).bytes made = .ok () made
  begun : FileSystem.write (slotArchive s.stagingRoot .linuxX64).bytes (.archive []) made =
    .ok () (begunAt made l)
  entries : distinctEntries [] ((begunAt made l).archiveEntries [[99], linux]) =
    (bundleEntries, none)
  filled : FileSystem.write (slotArchive s.stagingRoot .linuxX64).bytes (.archive bundleEntries)
    (begunAt made l) = .ok () (filledAt made l)
  occupied : FileSystem.content (s.agentBinary .linuxX64).bytes (filledAt made l) =
    .ok (.archive bundleEntries) (filledAt made l)
  root : FileSystem.makeDirectories s.outputRoot.bytes (filledAt made l) = .ok () (filledAt made l)
  marked : ∀ c, FileSystem.write s.versionMarker.bytes c (filledAt made l) =
    .ok () ((filledAt made l).set [[111], marker] (.file c defaultMode))

/-- What is known of the settings and the disk of such a run without the run's operations. -/
structure Bundles (s : Settings) (fs : FileSystem) : Prop where
  settings : bundled.settings s = s
  start : (bundled.start fs).files = fs
  root : fs.get? [[99]] = some .directory
  host : ¬(s.host = .macos ∧ Platform.linuxX64.isMac)
  parent : (slotArchive s.stagingRoot .linuxX64).parent? = some (slot s.stagingRoot .linuxX64)
  top : s.versionMarker.parent? = some s.outputRoot
  companion : (companionCommand s .linuxX64 version).flagValue? "-o" = some "/c/linux-x64"
  agent : (agentCommand s .linuxX64 version (slotArchive s.stagingRoot .linuxX64)).flagValue? "-o" ≠
    some "/c/linux-x64"

section Occupied

variable {made : FileSystem} {l : Location} (hs : Bundles s fs) (h : Occupied s fs made l)
include hs h

theorem handOver_of_occupied : ∃ handed,
    handOver bundled.env s version .linuxX64 (bundled.start fs) = .ok (slotArchive s.stagingRoot .linuxX64) handed ∧ handed.files = filledAt made l := by
  obtain ⟨w₁, hbegin, hw₁⟩ := begin_of_removals (w := bundled.start fs)
    (hs.start.symm ▸ h.no_archive) h.no_bundle h.no_executable
  obtain ⟨w₂, hleft, hw₂⟩ : ∃ w₂, publishCompanion bundled.env s version .linuxX64 w₁ = .ok () w₂ ∧
      w₂.files = lay [99] linux agent binary fs := by
    rw [← hw₁]
    exact ⟨_, rfl, bundleOutput_eq hs.companion (hw₁ ▸ hs.root)⟩
  have harchive : ∃ handed, archiveBundle bundled.env s.stagingRoot .linuxX64
      (s.bundleDir .linuxX64) s.host w₂ = .ok (slotArchive s.stagingRoot .linuxX64) handed ∧
        handed.files = filledAt made l :=
    archiveBundle_of_writes made (begunAt made l) [[99], linux] bundleEntries hs.host hs.parent
      (hw₂ ▸ h.slotted) h.bundle h.again h.begun h.entries h.filled
  obtain ⟨handed, harchive, hhanded⟩ := harchive
  exact ⟨handed, bind_eq_ok.2 ⟨(), w₁, hbegin, bind_eq_ok.2 ⟨(), w₂, hleft, harchive⟩⟩, hhanded⟩

theorem package_of_occupied : ∃ made w',
    package bundled.env s [.linuxX64] version (bundled.start fs) = .ok made w' := by
  obtain ⟨handed, hover, hhanded⟩ := handOver_of_occupied hs h
  obtain ⟨w₁, hpublish, hw₁⟩ : ∃ w₁, publishAgent bundled.env s version
      (slotArchive s.stagingRoot .linuxX64) .linuxX64 handed = .ok () w₁ ∧
        w₁.files = filledAt made l := ⟨_, rfl, (if_neg hs.agent).trans hhanded⟩
  obtain ⟨a, w₂, hverify, hw₂⟩ := verify_of_content (slotArchive s.stagingRoot .linuxX64)
    (hw₁ ▸ h.occupied)
  rw [hw₁] at hw₂
  have hplatform : packagePlatform bundled.env s version .linuxX64 (bundled.start fs) =
      .ok a w₂ := by
    rw [packagePlatform_eq]
    exact bind_eq_ok.2 ⟨_, handed, hover, bind_eq_ok.2 ⟨_, w₁, hpublish, hverify⟩⟩
  obtain ⟨w₃, hmark, -⟩ := markVersion_of_write (v := version) (w := w₂) _ hs.top
    (hw₂.symm ▸ h.root) (hw₂.symm ▸ h.marked)
  have hclean : s.clean = false := by
    rw [← hs.settings]
    rfl
  exact ⟨_, w₃, package_of_platform hclean hplatform hmark⟩

theorem unsound_of_occupied : ¬MarkerSound s [.linuxX64] fs [bundled] := by
  obtain ⟨handed, hover, hhanded⟩ := handOver_of_occupied hs h
  obtain ⟨made, w', hpackage⟩ := package_of_occupied hs h
  have hafter : filesAfter s [.linuxX64] fs [bundled] = w'.files := by
    change (after (package bundled.env (bundled.settings s) _ version) (bundled.start fs)).files = _
    rw [hs.settings, after_of_ok hpackage]
  intro hsound
  obtain ⟨before, run, later, held, hruns, -, hpublished, -⟩ := hsound version
    (hafter ▸ (marker_of_package hpackage).2) .linuxX64 (List.mem_singleton_self _)
  obtain ⟨rfl, rfl, -⟩ : before = [] ∧ run = bundled ∧ later = [] := by
    simpa [List.cons_eq_append_iff] using hruns
  have hpublished : Published bundled.env (bundled.settings s) version [.linuxX64]
      (bundled.start fs) .linuxX64 held := hpublished
  rw [hs.settings] at hpublished
  have hclean : s.clean = false := by
    rw [← hs.settings]
    rfl
  obtain ⟨hnone, -⟩ := hpublished.of_single hclean hover
  obtain ⟨mode, hnode⟩ := nodeAt?_of_content h.occupied
  rw [hhanded, hnode] at hnone
  cases hnone

end Occupied

def Spelled (s : Settings) (directory executable : List Name) : Prop :=
  (slot s.stagingRoot .linuxX64).bytes = joinNames true directory ∧
    (slotArchive s.stagingRoot .linuxX64).bytes = joinNames true (directory ++ [zip]) ∧
    (s.bundleDir .linuxX64).bytes = joinNames true [[99], linux] ∧
    (s.agentBinary .linuxX64).bytes = joinNames true executable ∧
    s.outputRoot.bytes = joinNames true [[111]] ∧
    s.versionMarker.bytes = joinNames true [[111], marker]

theorem occupied_crossed : Occupied crossed bare
    ((lay [99] linux agent binary bare).set [[111], linux] .directory) [[111], linux, zip] := by
  have hspelled : Spelled crossed [[111], linux] [[111], linux, zip] := by
    unfold Spelled
    decide
  obtain ⟨hslot, harchive, hbundle, hexecutable, hroot, hmarker⟩ := hspelled
  constructor
  all_goals try simp only [hslot, harchive, hbundle, hexecutable, hroot, hmarker]
  case marked =>
    intro c
    cbv
  all_goals cbv

theorem occupied_rooted : Occupied rooted bare (lay [99] linux agent binary bare)
    [[115], linux, zip] := by
  have hspelled : Spelled rooted [[115], linux] [[115], linux, zip] := by
    unfold Spelled
    decide
  obtain ⟨hslot, harchive, hbundle, hexecutable, hroot, hmarker⟩ := hspelled
  constructor
  all_goals try simp only [hslot, harchive, hbundle, hexecutable, hroot, hmarker]
  case marked =>
    intro c
    cbv
  all_goals cbv

def rerouted : FileSystem where
  entries := [([[115]], .link [47, 111]), ([[111]], .directory), ([[99]], .directory)]

theorem occupied_zipped : Occupied zipped rerouted
    ((lay [99] linux agent binary rerouted).set [[111], linux] .directory) [[111], linux, zip] := by
  have hspelled : Spelled zipped [[115], linux] [[111], linux, zip] := by
    unfold Spelled
    decide
  obtain ⟨hslot, harchive, hbundle, hexecutable, hroot, hmarker⟩ := hspelled
  constructor
  all_goals try simp only [hslot, harchive, hbundle, hexecutable, hroot, hmarker]
  case marked =>
    intro c
    cbv
  all_goals cbv

theorem unsound_crossed : ¬MarkerSound crossed [.linuxX64] bare [bundled] :=
  unsound_of_occupied ⟨rfl, rfl, by decide, by decide, by decide, by decide, by decide, by decide⟩
    occupied_crossed

theorem unsound_rooted : ¬MarkerSound rooted [.linuxX64] bare [bundled] :=
  unsound_of_occupied ⟨rfl, rfl, by decide, by decide, by decide, by decide, by decide, by decide⟩
    occupied_rooted

theorem unsound_zipped : ¬MarkerSound zipped [.linuxX64] rerouted [bundled] :=
  unsound_of_occupied ⟨rfl, rfl, by decide, by decide, by decide, by decide, by decide, by decide⟩
    occupied_zipped

def overreaching : PackagingRun Unit :=
  ⟨false, version, bundling marker (.bytes (Text.encode "2.0.0")) 1, (), []⟩

theorem unsound_overlapping : ¬MarkerSound overlapping [.linuxX64] bare [overreaching] := by
  have hflag : (companionCommand overlapping .linuxX64 version).flagValue? "-o" =
      some "/c/linux-x64" := by decide
  have hbegin : ∃ w₁, beginPlatform overlapping .linuxX64 (overreaching.start bare) = .ok () w₁ ∧
      w₁.files = bare := by
    have hslot : ifAny (FileSystem.removeFile
        (slotArchive overlapping.stagingRoot .linuxX64).bytes) bare = .ok () bare := by
      rw [show (slotArchive overlapping.stagingRoot .linuxX64).bytes =
        joinNames true [[115], linux, zip] by decide]
      cbv
    have hbundle : ifAny (FileSystem.removeDirectory (overlapping.bundleDir .linuxX64).bytes) bare =
        .ok () bare := by
      rw [show (overlapping.bundleDir .linuxX64).bytes = joinNames true [[99], linux] by decide]
      cbv
    have hexecutable : ifAny (FileSystem.removeFile (overlapping.agentBinary .linuxX64).bytes)
        bare = .ok () bare := by
      rw [show (overlapping.agentBinary .linuxX64).bytes =
        joinNames true [[99], linux, linux, agent] by decide]
      cbv
    exact begin_of_removals (w := overreaching.start bare) hslot hbundle hexecutable
  obtain ⟨w₁, hbegin, hw₁⟩ := hbegin
  obtain ⟨e, w', hcompanion, hw'⟩ : ∃ e w', publishCompanion overreaching.env overlapping version
      .linuxX64 w₁ = .error e w' ∧
        w'.files = lay [99] linux marker (.bytes (Text.encode "2.0.0")) bare := by
    rw [← hw₁]
    exact ⟨_, _, rfl, bundleOutput_eq hflag (by rw [hw₁]; rfl)⟩
  have hpackage : package overreaching.env overlapping [.linuxX64] version
      (overreaching.start bare) = .error e w' := by
    rw [package_eq]
    exact bind_eq_error.2
      (.inr ⟨(), _, rfl, bind_of_error (packageEach_of_refusal hbegin hcompanion [])⟩)
  have hafter : filesAfter overlapping [.linuxX64] bare [overreaching] = w'.files := by
    change (after (package overreaching.env overlapping _ version)
      (overreaching.start bare)).files = _
    rw [after_of_error hpackage]
  have hmarked : FileSystem.content overlapping.versionMarker.bytes w'.files =
      .ok (.bytes (Text.encode "2.0.0")) w'.files := by
    rw [hw', show overlapping.versionMarker.bytes = joinNames true [[99], linux, marker] by decide]
    cbv
  intro hsound
  obtain ⟨before, run, later, held, hruns, hversion, -⟩ := hsound ⟨"2", "0", "0", none⟩
    (hafter ▸ hmarked) .linuxX64 (List.mem_singleton_self _)
  obtain ⟨rfl, rfl, -⟩ : before = [] ∧ run = overreaching ∧ later = [] := by
    simpa [List.cons_eq_append_iff] using hruns
  exact absurd hversion (by decide)

theorem unsound_of_gone {runs : List (PackagingRun Unit)} {left : FileSystem} (v : Version)
    (hafter : filesAfter s [.linuxX64] fs runs = left)
    (hmarked : FileSystem.content s.versionMarker.bytes left =
      .ok (.bytes (Text.encode v.text)) left)
    (hgone : left.nodeAt? (s.agentBinary .linuxX64).bytes true = none) :
    ¬MarkerSound s [.linuxX64] fs runs := by
  intro hsound
  rw [← hafter] at hmarked hgone
  obtain ⟨before, run, later, held, -, -, -, hthere⟩ :=
    hsound v hmarked .linuxX64 (List.mem_singleton_self _)
  obtain ⟨mode, hnode⟩ := nodeAt?_of_content hthere
  rw [hgone] at hnode
  cases hnode

theorem unsound_second : ¬MarkerSound settings [.linuxX64] bare [first, second] := by
  refine unsound_of_gone version files_after_second ?_ no_executable_begunAgain
  rw [bytes_marker]
  cbv

def halted : FileSystem :=
  (stopped.start marked).files.removeBelow [[111]] [[[111], marker]]

theorem stopped_refused : ∃ e w', stopped.session settings [.linuxX64] (stopped.start marked) =
    .error e w' ∧ w'.files = halted := by
  have hremove : ifAny (FileSystem.removeDirectory settings.outputRoot.bytes)
      (stopped.start marked).files = .error .accessDenied halted := by
    rw [bytes_outputRoot]
    cbv
  obtain ⟨e, w', hclean, hw'⟩ : ∃ e w', clean (stopped.settings settings) (stopped.start marked) =
      .error e w' ∧ w'.files = halted := by
    rw [clean_eq]
    exact ⟨_, _, bind_eq_error.2 (.inr ⟨(), _, rfl, bind_of_error (onFiles_failed hremove)⟩), rfl⟩
  refine ⟨e, w', ?_, hw'⟩
  change package refusing (stopped.settings settings) [.linuxX64] second.version _ = _
  rw [package_eq]
  exact bind_of_error hclean

theorem files_after_stopped :
    filesAfter settings [.linuxX64] bare [first, stopped] = halted := by
  obtain ⟨e, w', hstopped, hw'⟩ := stopped_refused
  change stopped.leaves settings _ (filesAfter settings [.linuxX64] bare [first]) = _
  rw [files_after_first, PackagingRun.leaves, after_of_error hstopped, hw']

theorem unsound_stopped : ¬MarkerSound settings [.linuxX64] bare [first, stopped] := by
  refine unsound_of_gone version files_after_stopped ?_ ?_
  · rw [bytes_marker]
    cbv
  · rw [bytes_executable]
    cbv

/-- What is left by an agent's publish that makes the executable a link to the marker, and by the
other commands. -/
def linkOutput (command : Invocation) (fs : FileSystem) : FileSystem :=
  if command.flagValue? "-o" = some "/o/linux-x64" then
    fs.set [[111], linux, agent] (.link (joinNames true [[111], marker]))
  else layOutput agent binary command fs

def linking : Surroundings Unit where
  execute _ command fs _ := ⟨.ok ⟨some 0⟩, [], linkOutput command fs, (), []⟩
  interactive := false
  answer _ _ := (false, ())

def misled : PackagingRun Unit := ⟨false, second.version, linking, (), []⟩

theorem linkOutput_companion (p : Platform) (fs : FileSystem) :
    linkOutput (companionCommand settings p second.version) fs =
      layOutput agent binary (companionCommand settings p second.version) fs := by
  rw [linkOutput, flagValue?_companion, if_neg (by cases p <;> decide)]

theorem beneath_linking : Beneath settings [] second.version linking := by
  refine ⟨fun p fs _ l hl ↦ ?_, fun p fs _ l hl ↦ ?_, fun p fs _ ↦ ?_⟩
  · change Paved _ fs (linkOutput _ fs) l
    rw [linkOutput_companion]
    rw [placeOf_bundleDir] at hl ⊢
    exact (within_layOutput (flagValue?_companion p) (placeOf_bundleDir p)).outside l hl
  · change Paved _ fs (linkOutput _ fs) l
    rw [placeOf_agentDir] at hl ⊢
    rw [linkOutput, flagValue?_agent]
    split
    next hflag =>
      have hlinux : p = .linuxX64 := by
        revert hflag
        cases p <;> decide
      subst hlinux
      refine .inl (get?_set_of_ne _ ?_)
      rintro rfl
      exact hl (by decide)
    · exact (within_layOutput (flagValue?_agent p) (placeOf_agentDir p)).outside l hl
  · change linkOutput _ fs = fs
    have hnone : (dittoCommand (settings.bundleDir p)
        (slotArchive settings.stagingRoot p)).flagValue? "-o" = none := by cases p <;> rfl
    rw [linkOutput, hnone, if_neg nofun]
    exact layOutput_of_no_flag hnone

def relaid : FileSystem := lay [99] linux agent binary begunAgain

def rearchived : FileSystem :=
  (relaid.set [[115], linux, zip] (.file (.archive []) defaultMode)).set [[115], linux, zip]
    (.file (.archive bundleEntries) defaultMode)

def relinked : FileSystem :=
  rearchived.set [[111], linux, agent] (.link (joinNames true [[111], marker]))

theorem handOver_misled : ∃ handed, handOver linking settings second.version .linuxX64
    (misled.start marked) = .ok (slotArchive settings.stagingRoot .linuxX64) handed ∧
      handed.files = rearchived := by
  obtain ⟨w₁, hbegin, hw₁⟩ := begin_marked (w := misled.start marked) (by rfl)
  obtain ⟨w₂, hleft, hw₂⟩ : ∃ w₂, publishCompanion linking settings second.version .linuxX64 w₁ =
      .ok () w₂ ∧ w₂.files = relaid := by
    refine ⟨_, rfl, (linkOutput_companion .linuxX64 w₁.files).trans ?_⟩
    rw [hw₁, layOutput_eq (flagValue?_companion .linuxX64) (placeOf_bundleDir .linuxX64)]
    rfl
  have harchive : ∃ handed, archiveBundle linking settings.stagingRoot .linuxX64
      (settings.bundleDir .linuxX64) settings.host w₂ =
        .ok (slotArchive settings.stagingRoot .linuxX64) handed ∧ handed.files = rearchived := by
    refine archiveBundle_of_writes relaid (relaid.set [[115], linux, zip]
      (.file (.archive []) defaultMode)) [[99], linux] bundleEntries (by decide) (by decide)
      ?_ ?_ ?_ ?_ ?_ ?_
    all_goals try rw [bytes_slot]
    all_goals try rw [bytes_archive]
    all_goals try rw [bytes_bundle]
    all_goals try rw [hw₂]
    all_goals cbv
  obtain ⟨handed, harchive, hhanded⟩ := harchive
  exact ⟨handed, bind_eq_ok.2 ⟨(), w₁, hbegin, bind_eq_ok.2 ⟨(), w₂, hleft, harchive⟩⟩, hhanded⟩

theorem content_relinked (c : Content) : FileSystem.content (settings.agentBinary .linuxX64).bytes
    (relinked.set [[111], marker] (.file c defaultMode)) =
      .ok c (relinked.set [[111], marker] (.file c defaultMode)) := by
  rw [bytes_executable]
  cbv

theorem publish_misled {handed : World Unit} (hhanded : handed.files = rearchived) :
    ∃ published, publishAgent linking settings second.version
        (slotArchive settings.stagingRoot .linuxX64) .linuxX64 handed = .ok () published ∧
      published.files = relinked := by
  have hlinked : linkOutput (agentCommand settings .linuxX64 second.version
      (slotArchive settings.stagingRoot .linuxX64)) handed.files = relinked := by
    rw [linkOutput, flagValue?_agent, if_pos (by decide), hhanded]
    rfl
  exact ⟨_, rfl, hlinked⟩

theorem held_misled : FileSystem.content (settings.agentBinary .linuxX64).bytes relinked =
    .ok (.bytes (Text.encode version.text)) relinked := by
  rw [bytes_executable]
  cbv

theorem files_after_misled : filesAfter settings [.linuxX64] bare [first, misled] =
    relinked.set [[111], marker]
      (.file (.bytes (Text.encode second.version.text)) defaultMode) := by
  obtain ⟨handed, hover, hhanded⟩ := handOver_misled
  obtain ⟨published, hpublish, hpublished⟩ := publish_misled hhanded
  obtain ⟨a, w₂, hverify, hw₂⟩ := verify_of_content (slotArchive settings.stagingRoot .linuxX64)
    (hpublished ▸ held_misled)
  rw [hpublished] at hw₂
  have hplatform : packagePlatform linking settings second.version .linuxX64 (misled.start marked) =
      .ok a w₂ := by
    rw [packagePlatform_eq]
    exact bind_eq_ok.2 ⟨_, handed, hover, bind_eq_ok.2 ⟨_, published, hpublish, hverify⟩⟩
  obtain ⟨w₃, hmark, hw₃⟩ := markVersion_of_write (s := settings) (v := second.version) (w := w₂)
    (fun c ↦ relinked.set [[111], marker] (.file c defaultMode)) (by decide)
    (by rw [bytes_outputRoot, hw₂]; cbv) fun c ↦ (by rw [bytes_marker, hw₂]; cbv)
  have hsession : misled.session settings [.linuxX64] (misled.start marked) = .ok _ w₃ :=
    package_of_platform rfl hplatform hmark
  change misled.leaves settings _ (filesAfter settings [.linuxX64] bare [first]) = _
  rw [files_after_first, PackagingRun.leaves, after_of_ok hsession, hw₃]

/-- The run ends well, but the marker that it writes is then read as the executable. -/
theorem unsound_misled : ¬MarkerSound settings [.linuxX64] bare [first, misled] := by
  have hmarked : FileSystem.content settings.versionMarker.bytes (relinked.set [[111], marker]
      (.file (.bytes (Text.encode second.version.text)) defaultMode)) =
        .ok (.bytes (Text.encode second.version.text)) (relinked.set [[111], marker]
          (.file (.bytes (Text.encode second.version.text)) defaultMode)) := by
    rw [bytes_marker]
    cbv
  intro hsound
  obtain ⟨before, run, later, held, hruns, hversion, hpublished, hthere⟩ := hsound second.version
    (files_after_misled ▸ hmarked) .linuxX64 (List.mem_singleton_self _)
  obtain ⟨rfl, rfl, -⟩ | ⟨rfl, rfl, -⟩ : before = [] ∧ run = first ∧ later = [misled] ∨
      before = [first] ∧ run = misled ∧ later = [] := by
    simpa [List.cons_eq_append_iff] using hruns
  · exact absurd hversion (by decide)
  rw [files_after_first] at hpublished
  have hpublished : Published linking settings second.version [.linuxX64] (misled.start marked)
      .linuxX64 held := hpublished
  obtain ⟨handed, hover, hhanded⟩ := handOver_misled
  obtain ⟨published, hpublish, hfiles⟩ := publish_misled hhanded
  obtain ⟨-, published', hpublish', hheld⟩ := hpublished.of_single rfl hover
  obtain rfl : published = published' := by
    rw [hpublish] at hpublish'
    cases hpublish'
    rfl
  rw [hfiles, held_misled] at hheld
  rw [files_after_misled, content_relinked] at hthere
  cases hheld
  injection hthere with hsame
  injection hsame with hbytes
  exact absurd (Text.encode_inj.1 hbytes) (by decide)

theorem beneath_first : Beneath settings [] version first.env := by
  refine ⟨fun p fs tools l hl ↦ ?_, fun p fs tools l hl ↦ ?_, fun p fs tools ↦ ?_⟩
  · rw [placeOf_bundleDir] at hl ⊢
    exact (within_layOutput (flagValue?_companion p) (placeOf_bundleDir p)).outside l hl
  · rw [placeOf_agentDir] at hl ⊢
    exact (within_layOutput (flagValue?_agent p) (placeOf_agentDir p)).outside l hl
  · exact layOutput_of_no_flag (by cases p <;> rfl)

theorem beneath_refusing (v : Version) : Beneath settings [] v refusing :=
  ⟨fun _ _ _ _ _ ↦ .inl rfl, fun _ _ _ _ _ ↦ .inl rfl, fun _ _ _ ↦ rfl⟩

theorem misleads_settings {run : PackagingRun Unit} (hrun : Beneath settings [] run.version run.env)
    (hunsound : ¬MarkerSound settings [.linuxX64] bare [first, run]) :
    Misleads settings [] [.linuxX64] bare [first, run] := by
  refine ⟨⟨"linux-x64", rfl⟩, empty_bare, ?_, hunsound⟩
  intro r hr
  obtain rfl | rfl : r = first ∨ r = run := by simpa using hr
  · exact beneath_first
  · exact hrun

theorem misleads_single {run : PackagingRun Unit}
    (hempty : ∀ e ∈ fs.entries, (placeOf [] s.outputRoot.bytes).isPrefixOf e.1 →
      e.1 = placeOf [] s.outputRoot.bytes) (hrun : Beneath s [] run.version run.env)
    (hunsound : ¬MarkerSound s [.linuxX64] fs [run]) : Misleads s [] [.linuxX64] fs [run] := by
  refine ⟨⟨"linux-x64", rfl⟩, empty_of_entries hempty, ?_, hunsound⟩
  intro r hr
  obtain rfl := List.mem_singleton.1 hr
  exact hrun

end Rehearsal

namespace Packaging

open Rehearsal

end Packaging

end ReleaseTrain
