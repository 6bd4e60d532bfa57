import ReleaseTrain.Proofs.ErrorAttribution

namespace ReleaseTrain

open FileSystem Session

variable {σ : Type}

namespace Session

/-- Of every command that the session runs, started in `w`, holds what `P` says. -/
def Runs {α : Type} (m : Session σ α) (w : World σ) (P : Call → Prop) : Prop :=
  Ends m w fun xs _ _ ↦ ∀ c ∈ calls xs, P c

namespace Runs

variable {α β : Type} {m : Session σ α} {f : α → Session σ β} {w : World σ} {P Q : Call → Prop}

theorem of_mem (h : Runs m w P) {c : Call} (hc : c ∈ calls (exchanged m w)) : P c :=
  h.exchanged c hc

theorem mono (h : Runs m w P) (hPQ : ∀ c, P c → Q c) : Runs m w Q :=
  Ends.mono h fun _ _ _ hP c hc ↦ hPQ c (hP c hc)

theorem bind (hm : Runs m w P) (hf : ∀ a w', m w = .ok a w' → Runs (f a) w' P) :
    Runs (m >>= f) w P := by
  refine Ends.bind hm (fun _ _ _ _ h ↦ h) fun xs a w' hw hxs ↦ ?_
  refine Ends.mono (hf a w' hw) fun ys _ _ hys c hc ↦ ?_
  rw [calls_append, List.mem_append] at hc
  exact hc.elim (hxs c) (hys c)

theorem of_silent (hm : Silent m) (w : World σ) (P : Call → Prop) : Runs m w P := by
  refine (hm.ends w).mono ?_
  rintro xs _ _ ⟨rfl, -⟩ c hc
  cases hc

theorem of_isCommand {env : Surroundings σ} {mode : Mode} {command : Invocation}
    {failure : Except ReleaseError Outcome → ReleaseError} {m : Session σ Unit}
    (h : IsCommand env mode command failure m)
    (hP : P ⟨mode, command, (env.execute mode command w.files w.tools).result⟩) : Runs m w P := by
  refine (h w).mono ?_
  rintro xs _ _ ⟨result, rfl, rfl, -⟩ c hc
  obtain rfl := List.mem_singleton.1 hc
  exact hP

theorem of_carriesOut {planned : List (Mode × Invocation)} {post : α → Prop}
    (h : CarriesOut m planned post) (hP : ∀ c : Call, c.order ∈ planned → P c) : Runs m w P := by
  refine (h w).mono ?_
  rintro xs _ _ ⟨cs, rfl, hturn, -⟩ c hc
  rw [calls_map_call] at hc
  exact hP c (hturn.order_mem hc)

end Runs

end Session

namespace Packaging

variable {env : Surroundings σ} {s : Settings} {v : Version} {p q : Platform} {ps : List Platform}
  {w w' left handed : World σ} {archive : Path} {a : Artifact} {artifacts : List Artifact}

/-- How an archive came into its platform's slot after the companion's publish. -/
inductive Packed (env : Surroundings σ) (s : Settings) (p : Platform) (left handed : World σ) : Prop
  /-- It was written in-process, and is there. -/
  | zipped (slotted zipped : World σ) (entries : List ArchiveEntry) :
      ¬(s.host = .macos ∧ p.isMac) →
      Session.makeDirectories (slot s.stagingRoot p) left = .ok () slotted →
      Session.archive (s.bundleDir p) (slotArchive s.stagingRoot p) slotted = .ok () zipped →
      handed.files = zipped.files →
      FileSystem.content (slotArchive s.stagingRoot p).bytes handed.files =
        .ok (.archive entries) handed.files → Packed env s p left handed
  /-- The system's archiver said that it had succeeded. -/
  | dittoed (slotted : World σ) : s.host = .macos ∧ p.isMac →
      Session.makeDirectories (slot s.stagingRoot p) left = .ok () slotted →
      Ran env (dittoCommand (s.bundleDir p) (slotArchive s.stagingRoot p)) slotted handed →
      Packed env s p left handed

theorem packed_of_archiveBundle
    (h : archiveBundle env s.stagingRoot p (s.bundleDir p) s.host left = .ok archive handed) :
    Packed env s p left handed := by
  unfold archiveBundle at h
  obtain ⟨_, slotted, hslot, h⟩ := bind_eq_ok.1 h
  by_cases hmac : s.host = .macos ∧ p.isMac
  · rw [if_pos hmac] at h
    obtain ⟨_, packed, hditto, h⟩ := bind_eq_ok.1 h
    obtain ⟨_, told, hreport, h⟩ := bind_eq_ok.1 h
    cases h
    obtain ⟨hfiles, htools⟩ := report_eq_ok hreport
    obtain ⟨hresult, hleft, hstate⟩ := demand_ok hditto
    exact .dittoed slotted hmac hslot ⟨hresult, hfiles.trans hleft, htools.trans hstate⟩
  · rw [if_neg hmac] at h
    obtain ⟨_, packed, harchive, h⟩ := bind_eq_ok.1 h
    obtain ⟨_, told, hreport, h⟩ := bind_eq_ok.1 h
    cases h
    have hfiles := (report_eq_ok hreport).1
    obtain ⟨root, w₁, w₂, entries, -, -, -, -, hwrite⟩ := archive_eq_ok.1 harchive
    have hcontent := content_of_write (onFiles_ok hwrite).1
    rw [← hfiles] at hcontent
    exact .zipped slotted packed entries hmac hslot harchive hfiles hcontent

/-- The system's archiver said that it had succeeded, and there is no archive. -/
def Unmade (env : Surroundings σ) (s : Settings) (p : Platform) (handed : World σ) : Prop :=
  (s.host = .macos ∧ p.isMac) ∧ ∃ slotted,
    Ran env (dittoCommand (s.bundleDir p) (slotArchive s.stagingRoot p)) slotted handed ∧
    handed.files.isFile (slotArchive s.stagingRoot p).bytes = false

theorem Packed.isFile_or_unmade (h : Packed env s p left handed) :
    handed.files.isFile (slotArchive s.stagingRoot p).bytes = true ∨ Unmade env s p handed := by
  cases h with
  | zipped _ _ _ _ _ _ _ hcontent => exact .inl (isFile_of_content hcontent)
  | dittoed slotted hmac _ hran =>
    cases hfile : handed.files.isFile (slotArchive s.stagingRoot p).bytes with
    | true => exact .inl rfl
    | false => exact .inr ⟨hmac, slotted, hran, hfile⟩

theorem not_unmade (hkeeps : ∀ fs tools,
      (env.execute .captured (dittoCommand (s.bundleDir p) (slotArchive s.stagingRoot p)) fs
        tools).result = .ok ⟨some 0⟩ →
      (env.execute .captured (dittoCommand (s.bundleDir p) (slotArchive s.stagingRoot p)) fs
        tools).files.isFile (slotArchive s.stagingRoot p).bytes = true) :
    ¬Unmade env s p handed := by
  rintro ⟨-, slotted, hran, hnone⟩
  rw [hran.files, hkeeps slotted.files slotted.tools hran.result] at hnone
  cases hnone

theorem absent_of_begin (h : beginPlatform s p w = .ok () w') :
    Absent (w'.files.resolve (slotArchive s.stagingRoot p).bytes false) ∧
      Absent (w'.files.resolve (s.agentBinary p).bytes false) := by
  obtain ⟨_, w₀, -, h⟩ := bind_eq_ok.1 h
  obtain ⟨_, w₁, hslot, h⟩ := bind_eq_ok.1 h
  obtain ⟨_, w₂, hbundle, hexecutable⟩ := bind_eq_ok.1 h
  have hexecutable := (onFiles_ok hexecutable).1
  have hshrunk := (shrunk_of_removeDirectory (onFiles_ok hbundle).1).trans
    (shrunk_of_removeFile hexecutable)
  exact ⟨hshrunk.absent_of_absent (absent_of_removeFile (onFiles_ok hslot).1),
    absent_of_removeFile hexecutable⟩

/-- In a platform's step that was begun in `w`, the agent's publish that starts in `handed` is
supplied with an archive that the step itself saw to. -/
structure Supplied (env : Surroundings σ) (s : Settings) (v : Version) (p : Platform)
    (w handed : World σ) : Prop where
  handOver : handOver env s v p w = .ok (slotArchive s.stagingRoot p) handed
  made : ∃ started left, beginPlatform s p w = .ok () started ∧
    started.files.nodeAt? (slotArchive s.stagingRoot p).bytes false = none ∧
    started.files.nodeAt? (s.agentBinary p).bytes false = none ∧
    publishCompanion env s v p started = .ok () left ∧ Packed env s p left handed

theorem supplied_of_handOver
    (h : handOver env s v p w = .ok (slotArchive s.stagingRoot p) handed) :
    Supplied env s v p w handed := by
  obtain ⟨started, left, hbegin, hcompanion, harchive⟩ := handOver_ok h
  obtain ⟨hslot, hexecutable⟩ := absent_of_begin hbegin
  exact ⟨h, started, left, hbegin, nodeAt?_of_absent hslot, nodeAt?_of_absent hexecutable,
    hcompanion, packed_of_archiveBundle harchive⟩

theorem Supplied.isFile_or_unmade (h : Supplied env s v p w handed) :
    handed.files.isFile (slotArchive s.stagingRoot p).bytes = true ∨ Unmade env s p handed := by
  obtain ⟨started, left, -, -, -, -, hpacked⟩ := h.made
  exact hpacked.isFile_or_unmade

def IsAgentPublish (s : Settings) (v : Version) (c : Call) : Prop :=
  ∃ p archive, c.command = agentCommand s p v archive

theorem runs_handOver (w : World σ) :
    Runs (handOver env s v p) w fun c ↦ ¬IsAgentPublish s v c := by
  have hbegin : Silent (beginPlatform s p : Session σ Unit) :=
    (Silent.report _).bind fun _ ↦ silent_clearPlatform s p
  refine (Runs.of_silent hbegin w _).bind fun _ w₁ _ ↦ ?_
  refine (Runs.of_isCommand (isCommand_publishCompanion env s v p) ?_).bind fun _ w₂ _ ↦ ?_
  · rintro ⟨q, archive, hagent⟩
    exact companionCommand_ne_agentCommand hagent
  · refine .of_carriesOut (carriesOut_archiveBundle env s p) fun c hc ↦ ?_
    rintro ⟨q, archive, hagent⟩
    split at hc
    · have hditto := (congrArg Prod.snd (List.mem_singleton.1 hc)).symm.trans hagent
      have hne : "ditto" ≠ "dotnet" := by decide
      exact hne (congrArg Invocation.program hditto)
    · cases hc

/-- An agent's publish that was issued in a platform's step, begun in `w`: the platform's own, with
the archive that was handed over. -/
def AgentCall (env : Surroundings σ) (s : Settings) (v : Version) (p : Platform) (w : World σ)
    (c : Call) : Prop :=
  c.command = agentCommand s p v (slotArchive s.stagingRoot p) ∧ ∃ handed,
    Supplied env s v p w handed ∧
    c.result = (env.execute .captured c.command handed.files handed.tools).result

theorem runs_packagePlatform (w : World σ) :
    Runs (packagePlatform env s v p) w fun c ↦ IsAgentPublish s v c → AgentCall env s v p w c := by
  rw [packagePlatform_eq]
  refine ((runs_handOver w).mono fun c hnot hagent ↦ absurd hagent hnot).bind ?_
  intro archive handed hover
  obtain rfl := archive_of_handOver hover
  refine (Runs.of_isCommand (isCommand_publishAgent env s v _ p) fun _ ↦ ?_).bind fun _ w₁ _ ↦
    .of_silent (silent_verify s _ p) w₁ _
  exact ⟨rfl, handed, supplied_of_handOver hover, rfl⟩

def ComesTo (env : Surroundings σ) (s : Settings) (v : Version) (ps : List Platform) (w : World σ)
    (p : Platform) (reached : World σ) : Prop :=
  ∃ before later artifacts, ps = before ++ p :: later ∧
    packageEach env s v before w = .ok artifacts reached

theorem ComesTo.first (ps : List Platform) (w : World σ) : ComesTo env s v (p :: ps) w p w :=
  ⟨[], ps, [], rfl, rfl⟩

theorem ComesTo.next {reached : World σ} (hplatform : packagePlatform env s v q w = .ok a w')
    (h : ComesTo env s v ps w' p reached) : ComesTo env s v (q :: ps) w p reached := by
  obtain ⟨before, later, artifacts, rfl, hbefore⟩ := h
  exact ⟨q :: before, later, a :: artifacts, rfl,
    bind_eq_ok.2 ⟨a, w', hplatform, bind_eq_ok.2 ⟨artifacts, reached, hbefore, rfl⟩⟩⟩

theorem runs_packageEach (ps : List Platform) (w : World σ) :
    Runs (packageEach env s v ps) w fun c ↦ IsAgentPublish s v c →
      ∃ p reached, ComesTo env s v ps w p reached ∧ AgentCall env s v p reached c := by
  induction ps generalizing w with
  | nil => exact .of_silent (.pure []) w _
  | cons p ps ih =>
    refine ((runs_packagePlatform w).mono fun c hc hagent ↦
      ⟨p, w, .first ps w, hc hagent⟩).bind fun a w₁ hplatform ↦ ?_
    refine ((ih w₁).mono fun c hc hagent ↦ ?_).bind fun artifacts w₂ _ ↦ .of_silent (.pure _) w₂ _
    obtain ⟨q, reached, hcomes, hcall⟩ := hc hagent
    exact ⟨q, reached, hcomes.next hplatform, hcall⟩

theorem runs_package (ps : List Platform) (w : World σ) :
    Runs (package env s ps v) w fun c ↦ IsAgentPublish s v c →
      ∃ p cleaned reached, cleanIf s w = .ok () cleaned ∧ ComesTo env s v ps cleaned p reached ∧
        AgentCall env s v p reached c := by
  rw [package_eq]
  refine (Runs.of_silent (silent_cleanIf s) w _).bind fun _ cleaned hcleaned ↦ ?_
  refine ((runs_packageEach ps cleaned).mono fun c hc hagent ↦ ?_).bind fun artifacts w₁ _ ↦
    (Runs.of_silent (silent_markVersion s v) w₁ _).bind fun _ w₂ _ ↦ .of_silent (.pure _) w₂ _
  obtain ⟨p, reached, hcomes, hcall⟩ := hc hagent
  exact ⟨p, cleaned, reached, hcleaned, hcomes, hcall⟩

theorem step_of_artifact (h : packageEach env s v ps w = .ok artifacts w') (ha : a ∈ artifacts) :
    ∃ p reached done, ComesTo env s v ps w p reached ∧
      packagePlatform env s v p reached = .ok a done := by
  induction ps generalizing w artifacts with
  | nil =>
    cases h
    cases ha
  | cons p ps ih =>
    obtain ⟨first, w₁, hfirst, h⟩ := bind_eq_ok.1 h
    obtain ⟨others, w₂, hothers, h⟩ := bind_eq_ok.1 h
    cases h
    obtain rfl | ha := List.mem_cons.1 ha
    · exact ⟨p, w, w₁, .first ps w, hfirst⟩
    · obtain ⟨q, reached, done, hcomes, hplatform⟩ := ih hothers ha
      exact ⟨q, reached, done, hcomes.next hfirst, hplatform⟩

theorem exists_call_of_package {made : PackageReport} (h : package env s ps v w = .ok made w')
    (hp : p ∈ ps) : ∃ c ∈ calls (exchanged (package env s ps v) w),
      c.command = agentCommand s p v (slotArchive s.stagingRoot p) := by
  obtain ⟨cs, hcs, hturn, -⟩ := (carriesOut_package env s ps v w).exchanged
  rw [result_of_ok h] at hturn
  have hagent : (Mode.captured, agentCommand s p v (slotArchive s.stagingRoot p)) ∈
      cs.map Call.order := by
    rw [hturn.order_eq]
    refine List.mem_flatMap.2 ⟨p, hp, ?_⟩
    exact List.mem_cons_of_mem _ (List.mem_append_right _ List.mem_cons_self)
  obtain ⟨c, hc, horder⟩ := List.mem_map.1 hagent
  refine ⟨c, ?_, congrArg Prod.snd horder⟩
  rwa [hcs, calls_map_call]

/-- In a run of packaging, wherever it ends, an agent's publish is issued in the step of its
platform and with that platform's archive; and each artifact of a run that ends well comes from such
a publish, which put the executable where there was none. Nothing was under the archive's path when
the step had been begun, and there is a regular file when the publish is issued, unless the system's
archiver was to make it and left none although it said that it had succeeded. -/
theorem agents_supplied (env : Surroundings σ) (s : Settings) (v : Version) (ps : List Platform)
    (w : World σ) :
    (∀ c ∈ calls (exchanged (package env s ps v) w), IsAgentPublish s v c →
      ∃ p cleaned reached handed, cleanIf s w = .ok () cleaned ∧
        ComesTo env s v ps cleaned p reached ∧ Supplied env s v p reached handed ∧
        c.command = agentCommand s p v (slotArchive s.stagingRoot p) ∧
        c.result = (env.execute .captured c.command handed.files handed.tools).result ∧
        (handed.files.isFile (slotArchive s.stagingRoot p).bytes = true ∨
          Unmade env s p handed)) ∧
    (∀ made w', package env s ps v w = .ok made w' → ∀ a ∈ made.artifacts,
      a.companionArchive = slotArchive s.stagingRoot a.platform ∧
      a.executable = s.agentBinary a.platform ∧
      ∃ cleaned reached handed published, cleanIf s w = .ok () cleaned ∧
        ComesTo env s v ps cleaned a.platform reached ∧
        Supplied env s v a.platform reached handed ∧
        (handed.files.isFile a.companionArchive.bytes = true ∨ Unmade env s a.platform handed) ∧
        Ran env (agentCommand s a.platform v a.companionArchive) handed published ∧
        published.files.isFile a.executable.bytes = true) ∧
    ∀ p, (∀ fs tools,
        (env.execute .captured (dittoCommand (s.bundleDir p) (slotArchive s.stagingRoot p)) fs
          tools).result = .ok ⟨some 0⟩ →
        (env.execute .captured (dittoCommand (s.bundleDir p) (slotArchive s.stagingRoot p)) fs
          tools).files.isFile (slotArchive s.stagingRoot p).bytes = true) →
      ∀ handed, ¬Unmade env s p handed := by
  refine ⟨?_, ?_, fun p hkeeps handed ↦ not_unmade hkeeps⟩
  · intro c hc hagent
    obtain ⟨p, cleaned, reached, hclean, hcomes, hcommand, handed, hsupplied, hresult⟩ :=
      (runs_package ps w).of_mem hc hagent
    exact ⟨p, cleaned, reached, handed, hclean, hcomes, hsupplied, hcommand, hresult,
      hsupplied.isFile_or_unmade⟩
  · intro made w' h a ha
    obtain ⟨cleaned, packaged, artifacts, hclean, heach, -, rfl⟩ := package_ok h
    obtain ⟨p, reached, done, hcomes, hplatform⟩ := step_of_artifact heach ha
    obtain ⟨archive, handed, published, hover, hagent, hverify⟩ :=
      packagePlatform_handOver hplatform
    obtain rfl := archive_of_handOver hover
    obtain ⟨-, -, held, hheld, rfl⟩ := verify_ok hverify
    have hsupplied := supplied_of_handOver hover
    exact ⟨rfl, rfl, cleaned, reached, handed, published, hclean, hcomes, hsupplied,
      hsupplied.isFile_or_unmade, ran_of_demand hagent, isFile_of_content hheld⟩

end Packaging

namespace Rehearsal

open Packaging

def mac : Name := [111, 115, 120, 45, 120, 54, 52]

def macDisk : FileSystem where
  entries := [([[115], mac], .directory), ([[111]], .directory), ([[115]], .directory),
    ([[99]], .directory)]

def macSettings : Settings := { settings with host := .macos }

def macLeft : FileSystem := lay [99] mac agent binary macDisk

def macPublished : FileSystem := lay [111] mac agent binary macLeft

theorem bytes_macArchive :
    (slotArchive macSettings.stagingRoot .osxX64).bytes = joinNames true [[115], mac, zip] := by
  decide

theorem bytes_macExecutable :
    (macSettings.agentBinary .osxX64).bytes = joinNames true [[111], mac, agent] := by
  decide

def candid : Surroundings Unit where
  execute _ _ fs _ := ⟨.ok ⟨if fs.isFile (slotArchive macSettings.stagingRoot .osxX64).bytes then
    some 0 else some 1⟩, [], fs, (), []⟩
  interactive := false
  answer _ _ := (false, ())

theorem handOver_mac : ∃ handed, handOver (publishing agent binary) macSettings version .osxX64
    ⟨macDisk, (), []⟩ = .ok (slotArchive macSettings.stagingRoot .osxX64) handed ∧
      handed.files = macLeft := by
  have hslot : ifAny (FileSystem.removeFile (slotArchive macSettings.stagingRoot .osxX64).bytes)
      macDisk = .ok () macDisk := by
    rw [bytes_macArchive]
    cbv
  have hbundle : ifAny (FileSystem.removeDirectory (macSettings.bundleDir .osxX64).bytes) macDisk =
      .ok () macDisk := by
    rw [show (macSettings.bundleDir .osxX64).bytes = joinNames true [[99], mac] by decide]
    cbv
  have hexecutable : ifAny (FileSystem.removeFile (macSettings.agentBinary .osxX64).bytes) macDisk =
      .ok () macDisk := by
    rw [bytes_macExecutable]
    cbv
  obtain ⟨w₁, hbegin, hw₁⟩ := begin_of_removals (w := (⟨macDisk, (), []⟩ : World Unit))
    hslot hbundle hexecutable
  obtain ⟨w₂, hcompanion, hw₂⟩ := companion_lays (w := w₁) .osxX64 (by rw [hw₁]; rfl)
  rw [hw₁] at hw₂
  have hslotted : FileSystem.makeDirectories (slot macSettings.stagingRoot .osxX64).bytes w₂.files =
      .ok () macLeft := by
    rw [hw₂, show (slot macSettings.stagingRoot .osxX64).bytes = joinNames true [[115], mac] by
      decide]
    cbv
  have hnone : layOutput agent binary (dittoCommand (macSettings.bundleDir .osxX64)
      (slotArchive macSettings.stagingRoot .osxX64)) macLeft = macLeft := layOutput_of_no_flag rfl
  have harchive : ∃ handed, archiveBundle (publishing agent binary) macSettings.stagingRoot .osxX64
      (macSettings.bundleDir .osxX64) macSettings.host w₂ =
        .ok (slotArchive macSettings.stagingRoot .osxX64) handed ∧ handed.files = macLeft := by
    unfold archiveBundle
    rw [if_pos (by decide)]
    exact ⟨_, bind_eq_ok.2 ⟨(), _, onFiles_done hslotted, bind_eq_ok.2 ⟨(), _, rfl, rfl⟩⟩, hnone⟩
  obtain ⟨handed, harchive, hhanded⟩ := harchive
  exact ⟨handed, bind_eq_ok.2 ⟨_, w₁, hbegin, bind_eq_ok.2 ⟨_, w₂, hcompanion, harchive⟩⟩, hhanded⟩

theorem package_mac {handed : World Unit} (hover : handOver (publishing agent binary) macSettings
    version .osxX64 ⟨macDisk, (), []⟩ = .ok (slotArchive macSettings.stagingRoot .osxX64) handed)
    (hhanded : handed.files = macLeft) : ∃ made w', package (publishing agent binary) macSettings
      [.osxX64] version ⟨macDisk, (), []⟩ = .ok made w' ∧
      made.artifacts.map Artifact.companionArchive =
        [slotArchive macSettings.stagingRoot .osxX64] := by
  obtain ⟨w₁, hagent, hw₁⟩ := agent_lays (w := handed) .osxX64 (by rw [hhanded]; rfl)
  have hw₁ : w₁.files = macPublished := by
    rw [hw₁, hhanded]
    rfl
  have hcontent : FileSystem.content (macSettings.agentBinary .osxX64).bytes w₁.files =
      .ok binary w₁.files := by
    rw [bytes_macExecutable, hw₁]
    cbv
  obtain ⟨a, w₂, hverify, hw₂⟩ :=
    verify_of_content (slotArchive macSettings.stagingRoot .osxX64) hcontent
  have hplatform : packagePlatform (publishing agent binary) macSettings version .osxX64
      ⟨macDisk, (), []⟩ = .ok a w₂ := by
    rw [packagePlatform_eq]
    exact bind_eq_ok.2 ⟨_, handed, hover, bind_eq_ok.2 ⟨_, w₁, hagent, hverify⟩⟩
  obtain ⟨w₃, hmark, -⟩ := markVersion_of_write (s := macSettings) (v := version) (w := w₂)
    (fun c ↦ macPublished.set [[111], marker] (.file c defaultMode)) (by decide) (by
      rw [show macSettings.outputRoot.bytes = joinNames true [[111]] by decide, hw₂, hw₁]
      cbv) fun c ↦ (by
      rw [show macSettings.versionMarker.bytes = joinNames true [[111], marker] by decide, hw₂, hw₁]
      cbv)
  obtain ⟨-, -, held, -, ha⟩ := verify_ok hverify
  exact ⟨_, w₃, package_of_platform rfl hplatform hmark, by rw [ha]; rfl⟩

end Rehearsal

namespace Packaging

open Rehearsal

/-- A run on a disk with the leftovers of an earlier one. When the agent's publish is issued there
is an archive, which is not the old one, and when the publish has ended there is an executable.
Tools that tell the truth leave no archive unmade. -/
theorem agents_supplied_rehearsed :
    let env := publishing agent binary
    let w : World Unit := ⟨stale, (), []⟩
    let archive := slotArchive settings.stagingRoot .linuxX64
    (∃ c ∈ calls (exchanged (package env settings [.linuxX64] version) w),
      c.command = agentCommand settings .linuxX64 version archive ∧ ∃ reached handed,
        Supplied env settings version .linuxX64 reached handed ∧
        handed.files.isFile archive.bytes = true) ∧
    (∃ made w', package env settings [.linuxX64] version w = .ok made w' ∧ ∃ a ∈ made.artifacts,
      ∃ handed published,
        Ran env (agentCommand settings a.platform version a.companionArchive) handed published ∧
        published.files.isFile a.executable.bytes = true) ∧
    ∀ handed, ¬Unmade candid macSettings .osxX64 handed := by
  intro env w archive
  obtain ⟨made, w', hpackage⟩ := package_done (w := w) (.inr rfl)
  obtain ⟨hcalls, hartifacts, -⟩ := agents_supplied env settings version [.linuxX64] w
  refine ⟨?_, ?_, ?_⟩
  · obtain ⟨c, hc, hcommand⟩ := exists_call_of_package hpackage List.mem_cons_self
    obtain ⟨p, -, reached, handed, -, -, hsupplied, hown, -, hfile⟩ :=
      hcalls c hc ⟨.linuxX64, archive, hcommand⟩
    obtain rfl := agentCommand_inj (hcommand.symm.trans hown)
    refine ⟨c, hc, hcommand, reached, handed, hsupplied, hfile.resolve_right ?_⟩
    rintro ⟨⟨hhost, -⟩, -⟩
    exact absurd hhost (by decide)
  · obtain ⟨cleaned, packaged, artifacts, -, heach, -, rfl⟩ := package_ok hpackage
    obtain ⟨a, w₁, -, hrest⟩ := bind_eq_ok.1 heach
    obtain ⟨others, w₂, hnone, hmade⟩ := bind_eq_ok.1 hrest
    cases hmade
    obtain ⟨-, -, -, -, handed, published, -, -, -, -, hran, hfile⟩ :=
      hartifacts _ _ hpackage a List.mem_cons_self
    exact ⟨_, _, hpackage, a, List.mem_cons_self, handed, published, hran, hfile⟩
  · refine (agents_supplied candid macSettings version [.osxX64] ⟨macDisk, (), []⟩).2.2 .osxX64 ?_
    intro fs tools hsucceeded
    simpa [candid] using hsucceeded

/-- The system's archiver says that it has succeeded and writes nothing. The agent's publish is
issued all the same, with the path of an archive that does not exist, and the run ends well with an
artifact that names this archive. -/
theorem agent_published_without_archive :
    let env := publishing agent binary
    let w : World Unit := ⟨macDisk, (), []⟩
    let archive := slotArchive macSettings.stagingRoot .osxX64
    ∃ handed made w', package env macSettings [.osxX64] version w = .ok made w' ∧
      (∃ c ∈ calls (exchanged (package env macSettings [.osxX64] version) w),
        c.command = agentCommand macSettings .osxX64 version archive) ∧
      handOver env macSettings version .osxX64 w = .ok archive handed ∧
      handed.files.nodeAt? archive.bytes true = none ∧
      made.artifacts.map Artifact.companionArchive = [archive] := by
  intro env w archive
  obtain ⟨handed, hover, hhanded⟩ := handOver_mac
  obtain ⟨made, w', hpackage, hmade⟩ := package_mac hover hhanded
  refine ⟨handed, made, w', hpackage, exists_call_of_package hpackage List.mem_cons_self, hover, ?_,
    hmade⟩
  rw [bytes_macArchive, hhanded]
  cbv

end Packaging

end ReleaseTrain
