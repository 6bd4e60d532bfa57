import ReleaseTrain.Proofs.PackageAccount

namespace ReleaseTrain

open FileSystem Session Settings

variable {σ : Type}

namespace FileSystem

variable {fs fs' : FileSystem} {l o rel : Location} {written : Location → Option Node}

def Open (fs : FileSystem) (o : Location) : Prop :=
  ∀ m, m <+: o → m ≠ o → fs.get? m = none ∨ fs.get? m = some .directory

/-- What is written in a place, by its name from there, is there afterwards; what is not written
is as it was or is gone. -/
structure Leaves (written : Location → Option Node) (o : Location) (fs fs' : FileSystem) :
    Prop where
  new : ∀ rel node, written rel = some node → fs'.get? (o ++ rel) = some node
  old : ∀ rel, written rel = none →
    fs'.get? (o ++ rel) = fs.get? (o ++ rel) ∨ fs'.get? (o ++ rel) = none

theorem Leaves.get?_eq (h : Leaves written o fs fs') (hnone : fs.get? (o ++ rel) = none) :
    fs'.get? (o ++ rel) = written rel := by
  cases hw : written rel with
  | some node => exact h.new rel node hw
  | none =>
    obtain hsame | hgone := h.old rel hw
    · exact hsame.trans hnone
    · exact hgone

theorem Within.open_of_get? (h : Within o fs fs') (hfs' : fs'.WellFormed) (hl : o <+: l)
    (hthere : fs'.get? l ≠ none) : fs.Open o := by
  intro m hm hne
  have hout : ¬o <+: m := fun hom ↦ hne (hm.eq_of_length_le hom.length_le)
  have hdirectory : fs'.get? m = some .directory := by
    refine hfs'.directory_of_prefix (hm.trans hl) ?_ hthere
    rintro rfl
    exact hout hl
  obtain hsame | ⟨-, hnone, -⟩ := h.outside m hout
  · exact .inr (hsame.symm.trans hdirectory)
  · exact .inl hnone

end FileSystem

namespace Settings

/-- Tools that do not look at the disk: how a command ends, what it leads to and what it writes
depend on the command and on the commands before it. What is written where the directory cannot be
made is left open. -/
structure Blind (s : Settings) (cwd : Location) (v : Version) (env : Surroundings σ)
    (written : Invocation → σ → Location → Option Node) : Prop where
  confined : s.Confined cwd v env
  result : ∀ command fs fs' tools, (env.execute .captured command fs tools).result =
    (env.execute .captured command fs' tools).result
  tools : ∀ command fs fs' tools, (env.execute .captured command fs tools).tools =
    (env.execute .captured command fs' tools).tools
  companion : ∀ p fs tools, s.Ready cwd fs → fs.Open (placeOf cwd (s.bundleDir p).bytes) →
    Leaves (written (companionCommand s p v) tools) (placeOf cwd (s.bundleDir p).bytes) fs
      (env.execute .captured (companionCommand s p v) fs tools).files
  agent : ∀ p fs tools, s.Ready cwd fs → fs.Open (placeOf cwd (s.agentDir p).bytes) →
    Leaves (written (agentCommand s p v (slotArchive s.stagingRoot p)) tools)
      (placeOf cwd (s.agentDir p).bytes) fs
      (env.execute .captured (agentCommand s p v (slotArchive s.stagingRoot p)) fs tools).files

end Settings

namespace Packaging

variable {env : Surroundings σ} {s : Settings} {cwd : Location} {v : Version} {p : Platform}
  {ps : List Platform} {written : Invocation → σ → Location → Option Node}
  {w w' w₁ w₂ w₁' w₂' : World σ} {a a₁ a₂ : Artifact}

theorem tools_of_ran {command : Invocation} (hblind : s.Blind cwd v env written)
    (h₁ : Ran env command w₁ w₁') (h₂ : Ran env command w₂ w₂') (htools : w₁.tools = w₂.tools) :
    w₁'.tools = w₂'.tools := by
  rw [h₁.tools, h₂.tools, htools]
  exact hblind.tools command w₁.files w₂.files w₂.tools

theorem bundle_eq_written {cleared left : World σ} (hsep : s.Separate cwd)
    (hblind : s.Blind cwd v env written) (hready : s.Ready cwd w.files)
    (hbegin : beginPlatform s p w = .ok () cleared)
    (hcompanion : publishCompanion env s v p cleared = .ok () left)
    (hthere : left.files.get? (home cwd s.companionRoot p) = some .directory) (rel : Location) :
    left.files.get? (home cwd s.companionRoot p ++ rel) =
      written (companionCommand s p v) w.tools rel := by
  have hcleared := (kept_of_begin hsep hready hbegin).ready hready
  have hwithin := companion_within hblind.confined hcleared hcompanion
  have hopen : cleared.files.Open (home cwd s.companionRoot p) := by
    refine hwithin.open_of_get? (hcleared.within hwithin).wellFormed (List.prefix_refl _) ?_
    rw [hthere]
    nofun
  have hleaves := hblind.companion p cleared.files cleared.tools hcleared hopen
  rw [← (ran_of_demand hcompanion).files, (files_of_begin hsep hready hbegin).1] at hleaves
  exact hleaves.get?_eq (no_bundle_of_begin hsep hready hbegin (List.prefix_append _ rel))

/-- A platform's packaging up to the agent's publish, which is handed the archive. -/
def handOver (env : Surroundings σ) (s : Settings) (v : Version) (p : Platform) :
    Session σ Path := do
  beginPlatform s p
  publishCompanion env s v p
  archiveBundle env s.stagingRoot p (s.bundleDir p) s.host

theorem handOver_ok {archive : Path} (h : handOver env s v p w = .ok archive w') :
    ∃ cleared left, beginPlatform s p w = .ok () cleared ∧
      publishCompanion env s v p cleared = .ok () left ∧
      archiveBundle env s.stagingRoot p (s.bundleDir p) s.host left = .ok archive w' := by
  obtain ⟨_, cleared, hbegin, h⟩ := bind_eq_ok.1 h
  obtain ⟨_, left, hcompanion, harchive⟩ := bind_eq_ok.1 h
  exact ⟨cleared, left, hbegin, hcompanion, harchive⟩

section HandedOver

variable {archived published : World σ} {archive : Path} (hsep : s.Separate cwd)
  (hready : s.Ready cwd w.files) (hover : handOver env s v p w = .ok archive archived)
include hsep hready hover

theorem ready_of_handOver (hconfined : s.Confined cwd v env) :
    archive = slotArchive s.stagingRoot p ∧ s.Ready cwd archived.files := by
  obtain ⟨cleared, left, hbegin, hcompanion, harchive⟩ := handOver_ok hover
  have hcleared := (kept_of_begin hsep hready hbegin).ready hready
  have hleft := hcleared.within (companion_within hconfined hcleared hcompanion)
  obtain ⟨hpath, hslot⟩ := archiveBundle_within hsep hconfined hleft harchive
  exact ⟨hpath, hleft.within hslot⟩

theorem no_executable_of_handOver (hconfined : s.Confined cwd v env) :
    archived.files.get? (s.executablePlace cwd p) = none := by
  obtain ⟨cleared, left, hbegin, hcompanion, harchive⟩ := handOver_ok hover
  have hcleared := (kept_of_begin hsep hready hbegin).ready hready
  have hcompanion' := companion_within hconfined hcleared hcompanion
  have hslot := (archiveBundle_within hsep hconfined (hcleared.within hcompanion') harchive).2
  have hexecutable := hsep.home_prefix_executablePlace p
  rw [hslot.get?_of_apart, hcompanion'.get?_of_apart, no_executable_of_begin hsep hready hbegin]
  · exact (hsep.apart_agentDir s.companionRoot_mem (.inl hsep.companionRoot_ne)).beneath
      (List.prefix_refl _) hexecutable
  · exact (hsep.apart_agentDir s.stagingRoot_mem (.inl hsep.stagingRoot_ne)).beneath
      (List.prefix_refl _) hexecutable

theorem executable_eq_written (hblind : s.Blind cwd v env written)
    (hagent : publishAgent env s v (slotArchive s.stagingRoot p) p archived = .ok () published)
    (hthere : published.files.get? (s.executablePlace cwd p) ≠ none) :
    published.files.get? (s.executablePlace cwd p) =
      written (agentCommand s p v (slotArchive s.stagingRoot p)) archived.tools
        [Text.encode (p.binaryName s.agentName)] := by
  have harchived := (ready_of_handOver hsep hready hover hblind.confined).2
  have hnone := no_executable_of_handOver hsep hready hover hblind.confined
  have hwithin := agent_within hblind.confined harchived hagent
  have hopen : archived.files.Open (home cwd s.outputRoot p) :=
    hwithin.open_of_get? (harchived.within hwithin).wellFormed (hsep.home_prefix_executablePlace p)
      hthere
  have hleaves := hblind.agent p archived.files archived.tools harchived hopen
  rw [← (ran_of_demand hagent).files] at hleaves
  rw [hsep.executablePlace_eq] at hnone ⊢
  exact hleaves.get?_eq hnone

end HandedOver

theorem handOver_fresh {archive₁ archive₂ : Path} (hdisjoint : s.Disjoint cwd)
    (hblind : s.Blind cwd v env written) (hready₁ : s.Ready cwd w₁.files)
    (hready₂ : s.Ready cwd w₂.files) (htools : w₁.tools = w₂.tools)
    (h₁ : handOver env s v p w₁ = .ok archive₁ w₁')
    (h₂ : handOver env s v p w₂ = .ok archive₂ w₂') :
    w₁'.tools = w₂'.tools ∧ (¬(s.host = .macos ∧ p.isMac) → ∃ entries,
      FileSystem.content (slotArchive s.stagingRoot p).bytes w₁'.files =
        .ok (.archive entries) w₁'.files ∧
      FileSystem.content (slotArchive s.stagingRoot p).bytes w₂'.files =
        .ok (.archive entries) w₂'.files) := by
  have hsep := hdisjoint.toSeparate
  obtain ⟨cleared₁, left₁, hbegin₁, hcompanion₁, harchive₁⟩ := handOver_ok h₁
  obtain ⟨cleared₂, left₂, hbegin₂, hcompanion₂, harchive₂⟩ := handOver_ok h₂
  have hcleared : cleared₁.tools = cleared₂.tools := by
    rw [(files_of_begin hsep hready₁ hbegin₁).1, (files_of_begin hsep hready₂ hbegin₂).1, htools]
  have hleft := tools_of_ran hblind (ran_of_demand hcompanion₁) (ran_of_demand hcompanion₂) hcleared
  have hready (w : World σ) (hw : s.Ready cwd w.files) {cleared left : World σ}
      (hbegin : beginPlatform s p w = .ok () cleared)
      (hcompanion : publishCompanion env s v p cleared = .ok () left) : s.Ready cwd left.files :=
    ((kept_of_begin hsep hw hbegin).ready hw).within
      (companion_within hblind.confined ((kept_of_begin hsep hw hbegin).ready hw) hcompanion)
  have hleft₁ := hready w₁ hready₁ hbegin₁ hcompanion₁
  have hleft₂ := hready w₂ hready₂ hbegin₂ hcompanion₂
  by_cases hhost : s.host = .macos ∧ p.isMac
  · obtain ⟨-, slotted₁, -, hslotted₁, hran₁⟩ := archiveBundle_dittoed hsep hleft₁ hhost harchive₁
    obtain ⟨-, slotted₂, -, hslotted₂, hran₂⟩ := archiveBundle_dittoed hsep hleft₂ hhost harchive₂
    exact ⟨tools_of_ran hblind hran₁ hran₂ (by rw [hslotted₁, hslotted₂, hleft]),
      fun hno ↦ absurd hhost hno⟩
  · obtain ⟨-, htools₁, -⟩ := archiveBundle_slot hsep hleft₁ hhost harchive₁
    obtain ⟨-, htools₂, -⟩ := archiveBundle_slot hsep hleft₂ hhost harchive₂
    obtain ⟨hthere₁, -, hcontent₁⟩ := archiveBundle_inProcess hdisjoint hleft₁ hhost harchive₁
    obtain ⟨hthere₂, -, hcontent₂⟩ := archiveBundle_inProcess hdisjoint hleft₂ hhost harchive₂
    refine ⟨by rw [htools₁, htools₂, hleft], fun _ ↦ ⟨_, hcontent₁, ?_⟩⟩
    have hentries : left₁.files.archiveEntries (home cwd s.companionRoot p) =
        left₂.files.archiveEntries (home cwd s.companionRoot p) := by
      refine archiveEntries_congr hleft₂.wellFormed hleft₁.wellFormed fun rel _ ↦ ?_
      rw [bundle_eq_written hsep hblind hready₁ hbegin₁ hcompanion₁ hthere₁,
        bundle_eq_written hsep hblind hready₂ hbegin₂ hcompanion₂ hthere₂, htools]
    rw [hentries]
    exact hcontent₂

theorem packagePlatform_eq (env : Surroundings σ) (s : Settings) (v : Version) (p : Platform) :
    packagePlatform env s v p = (do
      let archive ← handOver env s v p
      publishAgent env s v archive p
      verify s archive p) := by
  simp only [packagePlatform, handOver, beginPlatform, bind_assoc]

theorem packagePlatform_handOver (h : packagePlatform env s v p w = .ok a w') :
    ∃ archive archived published, handOver env s v p w = .ok archive archived ∧
      publishAgent env s v archive p archived = .ok () published ∧
      verify s archive p published = .ok a w' := by
  obtain ⟨cleared, left, archive, archived, published, hbegin, hcompanion, harchive, hagent,
    hverify⟩ := packagePlatform_ok h
  exact ⟨archive, archived, published,
    bind_eq_ok.2 ⟨_, _, hbegin, bind_eq_ok.2 ⟨_, _, hcompanion, harchive⟩⟩, hagent, hverify⟩

theorem published_of_packagePlatform (hsep : s.Separate cwd) (hconfined : s.Confined cwd v env)
    (hready : s.Ready cwd w.files) (h : packagePlatform env s v p w = .ok a w') :
    ∃ archived published held mode,
      handOver env s v p w = .ok (slotArchive s.stagingRoot p) archived ∧
      publishAgent env s v (slotArchive s.stagingRoot p) p archived = .ok () published ∧
      w'.files = published.files ∧ w'.tools = published.tools ∧
      FileSystem.content (s.agentBinary p).bytes published.files = .ok held published.files ∧
      published.files.get? (s.executablePlace cwd p) = some (.file held mode) ∧
      a = ⟨p, s.agentBinary p, slotArchive s.stagingRoot p, held.toBytes.length,
        Digest.ofFile held.toBytes⟩ := by
  obtain ⟨archive, archived, published, hover, hagent, hverify⟩ := packagePlatform_handOver h
  obtain ⟨rfl, harchived⟩ := ready_of_handOver hsep hready hover hconfined
  have hpublished := harchived.within (agent_within hconfined harchived hagent)
  obtain ⟨hfiles, htools, held, hheld, ha⟩ := verify_ok hverify
  obtain ⟨-, mode, hnode⟩ := content_plain hpublished.wellFormed
    (hpublished.names (hsep.names_executable p))
    (hpublished.direct s.outputRoot_mem
      ((root_prefix_home cwd _ p).trans (hsep.home_prefix_executablePlace p)))
    (Path.bytes_join_ne_nil (p.isPlainName_binaryName hsep.agentName) _) hheld
  exact ⟨archived, published, held, mode, hover, hagent, hfiles, htools, hheld, hnode, ha⟩

theorem executable_of_packagePlatform (hsep : s.Separate cwd) (hblind : s.Blind cwd v env written)
    (hready : s.Ready cwd w.files) (h : packagePlatform env s v p w = .ok a w') :
    ∃ archived published held mode,
      handOver env s v p w = .ok (slotArchive s.stagingRoot p) archived ∧
      publishAgent env s v (slotArchive s.stagingRoot p) p archived = .ok () published ∧
      w'.tools = published.tools ∧
      written (agentCommand s p v (slotArchive s.stagingRoot p)) archived.tools
        [Text.encode (p.binaryName s.agentName)] = some (.file held mode) ∧
      a = ⟨p, s.agentBinary p, slotArchive s.stagingRoot p, held.toBytes.length,
        Digest.ofFile held.toBytes⟩ := by
  obtain ⟨archived, published, held, mode, hover, hagent, -, htools, -, hnode, ha⟩ :=
    published_of_packagePlatform hsep hblind.confined hready h
  refine ⟨archived, published, held, mode, hover, hagent, htools, ?_, ha⟩
  rw [← executable_eq_written hsep hready hover hblind hagent, hnode]
  rw [hnode]
  nofun

theorem packagePlatform_fresh (hdisjoint : s.Disjoint cwd) (hblind : s.Blind cwd v env written)
    (hready₁ : s.Ready cwd w₁.files) (hready₂ : s.Ready cwd w₂.files)
    (htools : w₁.tools = w₂.tools) (h₁ : packagePlatform env s v p w₁ = .ok a₁ w₁')
    (h₂ : packagePlatform env s v p w₂ = .ok a₂ w₂') : a₁ = a₂ ∧ w₁'.tools = w₂'.tools := by
  have hsep := hdisjoint.toSeparate
  obtain ⟨archived₁, published₁, held₁, mode₁, hover₁, hagent₁, htools₁, hwritten₁, rfl⟩ :=
    executable_of_packagePlatform hsep hblind hready₁ h₁
  obtain ⟨archived₂, published₂, held₂, mode₂, hover₂, hagent₂, htools₂, hwritten₂, rfl⟩ :=
    executable_of_packagePlatform hsep hblind hready₂ h₂
  have harchived := (handOver_fresh hdisjoint hblind hready₁ hready₂ htools hover₁ hover₂).1
  rw [harchived, hwritten₂] at hwritten₁
  cases hwritten₁
  exact ⟨rfl, by rw [htools₁, htools₂,
    tools_of_ran hblind (ran_of_demand hagent₁) (ran_of_demand hagent₂) harchived]⟩

theorem packageEach_fresh {artifacts₁ artifacts₂ : List Artifact} (hdisjoint : s.Disjoint cwd)
    (hblind : s.Blind cwd v env written) (hready₁ : s.Ready cwd w₁.files)
    (hready₂ : s.Ready cwd w₂.files) (htools : w₁.tools = w₂.tools)
    (h₁ : packageEach env s v ps w₁ = .ok artifacts₁ w₁')
    (h₂ : packageEach env s v ps w₂ = .ok artifacts₂ w₂') :
    artifacts₁ = artifacts₂ ∧ w₁'.tools = w₂'.tools ∧ s.Ready cwd w₁'.files ∧
      s.Ready cwd w₂'.files := by
  induction ps generalizing w₁ w₂ artifacts₁ artifacts₂ with
  | nil =>
    cases h₁
    cases h₂
    exact ⟨rfl, htools, hready₁, hready₂⟩
  | cons p ps ih =>
    obtain ⟨a₁, x₁, ha₁, h₁⟩ := bind_eq_ok.1 h₁
    obtain ⟨rest₁, y₁, hrest₁, h₁⟩ := bind_eq_ok.1 h₁
    obtain ⟨a₂, x₂, ha₂, h₂⟩ := bind_eq_ok.1 h₂
    obtain ⟨rest₂, y₂, hrest₂, h₂⟩ := bind_eq_ok.1 h₂
    cases h₁
    cases h₂
    obtain ⟨rfl, htools'⟩ := packagePlatform_fresh hdisjoint hblind hready₁ hready₂ htools ha₁ ha₂
    have hsep := hdisjoint.toSeparate
    have hx₁ := (packagePlatform_account hsep hblind.confined hready₁ ha₁).1.ready hready₁
    have hx₂ := (packagePlatform_account hsep hblind.confined hready₂ ha₂).1.ready hready₂
    obtain ⟨rfl, hend⟩ := ih hx₁ hx₂ htools' hrest₁ hrest₂
    exact ⟨rfl, hend⟩

theorem packageEach_clean (c : Bool) :
    packageEach env { s with clean := c } v ps = packageEach env s v ps := by
  induction ps with
  | nil => rfl
  | cons p ps ih =>
    unfold packageEach
    rw [ih]
    rfl

/-- Packaging up to the hand-over of a platform's archive to its agent's publish. -/
def untilHandOver (env : Surroundings σ) (s : Settings) (v : Version) (before : List Platform)
    (p : Platform) : Session σ Path := do
  cleanIf s
  let _ ← packageEach env s v before
  handOver env s v p

theorem exists_untilHandOver {before later : List Platform} {made : PackageReport}
    (h : package env s (before ++ p :: later) v w = .ok made w') :
    ∃ archive handed, untilHandOver env s v before p w = .ok archive handed := by
  obtain ⟨cleaned, packaged, artifacts, hclean, heach, -, -⟩ := package_ok h
  obtain ⟨first, reached, others, hbefore, hothers, -⟩ := packageEach_append heach
  obtain ⟨a, w₂, hp, -⟩ := bind_eq_ok.1 hothers
  obtain ⟨archive, handed, published, hover, -, -⟩ := packagePlatform_handOver hp
  exact ⟨archive, handed, bind_eq_ok.2 ⟨_, _, hclean, bind_eq_ok.2 ⟨_, _, hbefore, hover⟩⟩⟩

/-- Two runs with the same tools that come to a platform's hand-over hand the same archive over,
whether or not they cleaned. -/
theorem untilHandOver_fresh {before : List Platform} {c₁ c₂ : Bool} {archive₁ archive₂ : Path}
    (hdisjoint : s.Disjoint cwd) (hblind : s.Blind cwd v env written)
    (hready₁ : s.Ready cwd w₁.files) (hready₂ : s.Ready cwd w₂.files) (htools : w₁.tools = w₂.tools)
    (hhost : ¬(s.host = .macos ∧ p.isMac))
    (h₁ : untilHandOver env { s with clean := c₁ } v before p w₁ = .ok archive₁ w₁')
    (h₂ : untilHandOver env { s with clean := c₂ } v before p w₂ = .ok archive₂ w₂') :
    archive₁ = slotArchive s.stagingRoot p ∧ archive₂ = slotArchive s.stagingRoot p ∧ ∃ entries,
      FileSystem.content (slotArchive s.stagingRoot p).bytes w₁'.files =
        .ok (.archive entries) w₁'.files ∧
      FileSystem.content (slotArchive s.stagingRoot p).bytes w₂'.files =
        .ok (.archive entries) w₂'.files := by
  obtain ⟨_, cleaned₁, hclean₁, h₁⟩ := bind_eq_ok.1 h₁
  obtain ⟨_, cleaned₂, hclean₂, h₂⟩ := bind_eq_ok.1 h₂
  obtain ⟨first₁, reached₁, hbefore₁, hover₁⟩ := bind_eq_ok.1 h₁
  obtain ⟨first₂, reached₂, hbefore₂, hover₂⟩ := bind_eq_ok.1 h₂
  obtain ⟨hshrunk₁, htools₁⟩ := shrunk_of_cleanIf hclean₁
  obtain ⟨hshrunk₂, htools₂⟩ := shrunk_of_cleanIf hclean₂
  have hcleaned : cleaned₁.tools = cleaned₂.tools := by rw [htools₁, htools₂, htools]
  rw [packageEach_clean] at hbefore₁ hbefore₂
  obtain ⟨-, hreached, hready₁', hready₂'⟩ := packageEach_fresh hdisjoint hblind
    (hready₁.shrunk hshrunk₁) (hready₂.shrunk hshrunk₂) hcleaned hbefore₁ hbefore₂
  obtain ⟨-, hsame⟩ := handOver_fresh hdisjoint hblind hready₁' hready₂' hreached hover₁ hover₂
  have hsep := hdisjoint.toSeparate
  exact ⟨(ready_of_handOver hsep hready₁' hover₁ hblind.confined).1,
    (ready_of_handOver hsep hready₂' hover₂ hblind.confined).1, hsame hhost⟩

/-- The tools decide what packaging makes. Of two runs with the same tools that look at no disk,
both of which end well, the reports are the same, and so are the archives made in-process that the
agents' publishes are handed, whatever lay on the disks and whether or not they were cleaned. No
platform is done with an executable that was there when its companion's publish was started: its
agent's own publish put it where there was none. -/
theorem package_freshness (env : Surroundings σ) (s : Settings) (cwd : Location) (v : Version) :
    (∀ written, s.Disjoint cwd → s.Blind cwd v env written → ∀ c₁ c₂ ps w₁ w₂ made₁ made₂ w₁' w₂',
      s.Ready cwd w₁.files → s.Ready cwd w₂.files → w₁.tools = w₂.tools →
      package env { s with clean := c₁ } ps v w₁ = .ok made₁ w₁' →
      package env { s with clean := c₂ } ps v w₂ = .ok made₂ w₂' →
      made₁ = made₂ ∧ ∀ before p later, ps = before ++ p :: later →
        ¬(s.host = .macos ∧ p.isMac) → ∃ handed₁ handed₂ entries,
          untilHandOver env { s with clean := c₁ } v before p w₁ =
            .ok (slotArchive s.stagingRoot p) handed₁ ∧
          untilHandOver env { s with clean := c₂ } v before p w₂ =
            .ok (slotArchive s.stagingRoot p) handed₂ ∧
          FileSystem.content (slotArchive s.stagingRoot p).bytes handed₁.files =
            .ok (.archive entries) handed₁.files ∧
          FileSystem.content (slotArchive s.stagingRoot p).bytes handed₂.files =
            .ok (.archive entries) handed₂.files) ∧
    (∀ p w a w', packagePlatform env s v p w = .ok a w' → ∃ started left,
      beginPlatform s p w = .ok () started ∧ publishCompanion env s v p started = .ok () left ∧
      started.files.nodeAt? (s.agentBinary p).bytes false = none) ∧
    (s.Separate cwd → s.Confined cwd v env → ∀ p w a w', s.Ready cwd w.files →
      packagePlatform env s v p w = .ok a w' → ∃ archived,
        handOver env s v p w = .ok (slotArchive s.stagingRoot p) archived ∧
        archived.files.nodeAt? (s.agentBinary p).bytes false = none ∧
        (env.execute .captured (agentCommand s p v (slotArchive s.stagingRoot p)) archived.files
          archived.tools).files.isFile (s.agentBinary p).bytes = true) := by
  refine ⟨?_, ?_, ?_⟩
  · intro written hdisjoint hblind c₁ c₂ ps w₁ w₂ made₁ made₂ w₁' w₂' hready₁ hready₂ htools h₁ h₂
    obtain ⟨cleaned₁, packaged₁, artifacts₁, hclean₁, heach₁, -, rfl⟩ := package_ok h₁
    obtain ⟨cleaned₂, packaged₂, artifacts₂, hclean₂, heach₂, -, rfl⟩ := package_ok h₂
    rw [packageEach_clean] at heach₁ heach₂
    obtain ⟨hshrunk₁, htools₁⟩ := shrunk_of_cleanIf hclean₁
    obtain ⟨hshrunk₂, htools₂⟩ := shrunk_of_cleanIf hclean₂
    have hcleaned : cleaned₁.tools = cleaned₂.tools := by rw [htools₁, htools₂, htools]
    refine ⟨?_, ?_⟩
    · obtain ⟨rfl, -⟩ := packageEach_fresh hdisjoint hblind (hready₁.shrunk hshrunk₁)
        (hready₂.shrunk hshrunk₂) hcleaned heach₁ heach₂
      rfl
    · rintro before p later rfl hhost
      obtain ⟨archive₁, handed₁, huntil₁⟩ := exists_untilHandOver h₁
      obtain ⟨archive₂, handed₂, huntil₂⟩ := exists_untilHandOver h₂
      obtain ⟨rfl, rfl, entries, hcontent₁, hcontent₂⟩ :=
        untilHandOver_fresh hdisjoint hblind hready₁ hready₂ htools hhost huntil₁ huntil₂
      exact ⟨handed₁, handed₂, entries, huntil₁, huntil₂, hcontent₁, hcontent₂⟩
  · intro p w a w' h
    obtain ⟨started, left, _, _, _, hbegin, hcompanion, -⟩ := packagePlatform_ok h
    refine ⟨started, left, hbegin, hcompanion, ?_⟩
    obtain ⟨_, w₀, -, hclear⟩ := bind_eq_ok.1 hbegin
    obtain ⟨_, w₁, -, hclear⟩ := bind_eq_ok.1 hclear
    obtain ⟨_, w₂, -, hexecutable⟩ := bind_eq_ok.1 hclear
    exact nodeAt?_of_absent (absent_of_removeFile (onFiles_ok hexecutable).1)
  · intro hsep hconfined p w a w' hready h
    obtain ⟨archive, archived, published, hover, hagent, hverify⟩ := packagePlatform_handOver h
    obtain ⟨rfl, harchived⟩ := ready_of_handOver hsep hready hover hconfined
    refine ⟨archived, hover, ?_, ?_⟩
    · exact nodeAt?_plain harchived.wellFormed (harchived.names (hsep.names_executable p))
        (harchived.direct s.outputRoot_mem
          ((root_prefix_home cwd _ p).trans (hsep.home_prefix_executablePlace p)))
        (Path.bytes_join_ne_nil (p.isPlainName_binaryName hsep.agentName) _)
        (no_executable_of_handOver hsep hready hover hconfined)
    · obtain ⟨-, -, held, hheld, -⟩ := verify_ok hverify
      rw [← (ran_of_demand hagent).files]
      exact isFile_of_content hheld

end Packaging

namespace Rehearsal

variable {fs : FileSystem} {r n file : Name} {held : Content}

def oneFile (file : Name) (held : Content) (rel : Location) : Option Node :=
  if rel = [] then some .directory else if rel = [file] then some (.file held 0o755) else none

theorem leaves_lay : Leaves (oneFile file held) [r, n] fs (lay r n file held fs) := by
  refine ⟨fun rel node h ↦ ?_, fun rel h ↦ .inr ?_⟩
  · unfold oneFile at h
    rw [get?_lay]
    split at h
    next hrel =>
      subst hrel
      rw [if_neg (by simp), if_pos (.inl (by simp))]
      exact h
    split at h
    next hrel =>
      subst hrel
      rw [if_pos (by simp)]
      exact h
    · cases h
  · unfold oneFile at h
    split at h
    · cases h
    next hnil =>
    split at h
    · cases h
    next hfile =>
    rw [get?_lay, if_neg (by simpa using hfile), if_neg (by simpa using hnil)]
    exact get?_removeTree_beneath (by simp) (List.prefix_append _ _)

theorem leaves_layOutput {command : Invocation} {path : Path}
    (hflag : command.flagValue? "-o" = some path.text) (hplace : placeOf [] path.bytes = [r, n])
    (hopen : fs.Open [r, n]) :
    Leaves (oneFile file held) [r, n] fs (layOutput file held command fs) := by
  rw [layOutput_eq hflag hplace, if_pos (hopen [r] (by simp) (by simp))]
  exact leaves_lay

theorem blind_publishing (file : Name) (held : Content) :
    settings.Blind [] version (publishing file held) fun _ _ ↦ oneFile file held := by
  refine ⟨confined_publishing file held, fun _ _ _ _ ↦ rfl, fun _ _ _ _ ↦ rfl,
    fun p fs tools _ hopen ↦ ?_, fun p fs tools _ hopen ↦ ?_⟩
  · rw [placeOf_bundleDir] at hopen ⊢
    exact leaves_layOutput (flagValue?_companion p) (placeOf_bundleDir p) hopen
  · rw [placeOf_agentDir] at hopen ⊢
    exact leaves_layOutput (flagValue?_agent p) (placeOf_agentDir p) hopen

end Rehearsal

namespace Packaging

open Rehearsal

theorem package_freshness_rehearsed :
    let w₁ : World Unit := ⟨cleared, (), []⟩
    let w₂ : World Unit := ⟨stale, (), []⟩
    let env := publishing agent binary
    (∃ made w₁' w₂', package env settings [.linuxX64] version w₁ = .ok made w₁' ∧
      package env settings [.linuxX64] version w₂ = .ok made w₂') ∧
    ∃ a w' started left archived, packagePlatform env settings version .linuxX64 w₂ = .ok a w' ∧
      beginPlatform settings .linuxX64 w₂ = .ok () started ∧
      publishCompanion env settings version .linuxX64 started = .ok () left ∧
      started.files.nodeAt? (settings.agentBinary .linuxX64).bytes false = none ∧
      handOver env settings version .linuxX64 w₂ =
        .ok (slotArchive settings.stagingRoot .linuxX64) archived ∧
      archived.files.nodeAt? (settings.agentBinary .linuxX64).bytes false = none := by
  intro w₁ w₂ env
  obtain ⟨made₁, w₁', h₁⟩ := package_done (w := w₁) (.inl rfl)
  obtain ⟨made₂, w₂', h₂⟩ := package_done (w := w₂) (.inr rfl)
  obtain ⟨htwo, hcleared, hown⟩ := package_freshness env settings [] version
  refine ⟨⟨made₁, w₁', w₂', h₁, ?_⟩, ?_⟩
  · obtain ⟨rfl, -⟩ := htwo _ disjoint_settings (blind_publishing agent binary) false false
      [.linuxX64] w₁ w₂ made₁ made₂ w₁' w₂' (ready_disk (.inl rfl)) (ready_disk (.inr rfl)) rfl
      h₁ h₂
    exact h₂
  · obtain ⟨cleaned, packaged, artifacts, hclean, heach, -⟩ := package_ok h₂
    cases hclean
    obtain ⟨a, w', hplatform, -⟩ := bind_eq_ok.1 heach
    obtain ⟨started, left, hbegin, hcompanion, hnone⟩ := hcleared .linuxX64 w₂ a w' hplatform
    obtain ⟨archived, hover, hstill, -⟩ := hown separate_settings (confined_publishing agent binary)
      .linuxX64 w₂ a w' (ready_disk (.inr rfl)) hplatform
    exact ⟨a, w', started, left, archived, hplatform, hbegin, hcompanion, hnone, hover, hstill⟩

end Packaging

end ReleaseTrain
