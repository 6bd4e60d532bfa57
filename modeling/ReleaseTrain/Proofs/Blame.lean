import ReleaseTrain.Proofs.Accountability
import ReleaseTrain.Proofs.Freshness
import ReleaseTrain.Proofs.PushAccount

namespace ReleaseTrain

open Session

variable {σ : Type}

namespace Packaging

variable {env : Surroundings σ} {s : Settings} {v : Version} {p : Platform} {w w' : World σ}

/-- The error for which a command of packaging is to blame when it does not succeed. -/
inductive Blames (s : Settings) (v : Version) (c : Call) : ReleaseError → Prop
  | companion (p : Platform) : c.command = companionCommand s p v →
      Blames s v c (failureOf (fun outcome ↦ .companionBuildFailed p.id outcome.code) c.result)
  | ditto (p : Platform) : c.command = dittoCommand (s.bundleDir p) (slotArchive s.stagingRoot p) →
      Blames s v c (failureOf (fun _ ↦ .executionFailed
        (dittoCommand (s.bundleDir p) (slotArchive s.stagingRoot p)).text
        s!"Failed to archive companion bundle for {p.id}") c.result)
  | agent (p : Platform) : c.command = agentCommand s p v (slotArchive s.stagingRoot p) →
      Blames s v c (failureOf (fun outcome ↦ .agentBuildFailed p.id outcome.code) c.result)

theorem silent_cleanIf (s : Settings) : Silent (cleanIf s : Session σ Unit) := by
  unfold cleanIf
  split
  · exact silent_clean s
  · exact .pure ()

theorem isCommand_publishCompanion (env : Surroundings σ) (s : Settings) (v : Version)
    (p : Platform) :
    IsCommand env .captured (companionCommand s p v)
      (failureOf fun outcome ↦ .companionBuildFailed p.id outcome.code)
      (publishCompanion env s v p) :=
  .report_bind (.demand env _ _)

theorem isCommand_publishAgent (env : Surroundings σ) (s : Settings) (v : Version) (archive : Path)
    (p : Platform) :
    IsCommand env .captured (agentCommand s p v archive)
      (failureOf fun outcome ↦ .agentBuildFailed p.id outcome.code)
      (publishAgent env s v archive p) :=
  .report_bind (.demand env _ _)

section Stages

variable {own : ReleaseError → Prop} (hown : ∀ e : ReleaseError, e.isVerdict = false → own e)
include hown

theorem accounted_archiveBundle :
    Accounted (Blames s v) own (archiveBundle env s.stagingRoot p (s.bundleDir p) s.host) w := by
  unfold archiveBundle
  dsimp only
  have hlast (w : World σ) : Accounted (Blames s v) own (do
      report (.verbose s!"Archived companion bundle to {(slotArchive s.stagingRoot p).text}")
      return slotArchive s.stagingRoot p) w :=
    .of_plain ((Plain.report _).bind fun _ ↦ .pure _) hown
  refine .bind (.of_plain (.makeDirectories _) hown) fun _ w₁ _ ↦ ?_
  by_cases hmac : s.host = .macos ∧ p.isMac
  · rw [if_pos hmac]
    exact .bind (.of_isCommand (.demand env _ _) fun a ↦ .ditto p rfl) fun _ w₂ _ ↦ hlast w₂
  · rw [if_neg hmac]
    exact .bind (.of_plain (.archive _ _) hown) fun _ w₂ _ ↦ hlast w₂

theorem accounted_handOver : Accounted (Blames s v) own (handOver env s v p) w := by
  refine .bind (.of_plain ((Plain.report _).bind fun _ ↦ plain_clearPlatform s p) hown) fun _ _ _ ↦ ?_
  exact .bind (.of_isCommand (isCommand_publishCompanion env s v p) fun a ↦ .companion p rfl)
    fun _ _ _ ↦ accounted_archiveBundle hown

end Stages

theorem verify_of_absent {archive : Path}
    (h : w.files.isFile (s.agentBinary p).bytes = false) :
    verify s archive p w = .error (.artifactNotFound p.id (s.agentBinary p)) w := by
  have hfile : isFile (s.agentBinary p) w = .ok false w := by
    change EStateM.Result.ok (w.files.isFile (s.agentBinary p).bytes) w = _
    rw [h]
  exact (bind_of_ok hfile).trans rfl

theorem verify_error {archive : Path} {e : ReleaseError} (h : verify s archive p w = .error e w') :
    e.isVerdict = false ∨
      w.files.isFile (s.agentBinary p).bytes = false ∧
        e = .artifactNotFound p.id (s.agentBinary p) := by
  cases hfile : w.files.isFile (s.agentBinary p).bytes with
  | false =>
    rw [verify_of_absent hfile] at h
    cases h
    exact .inr ⟨rfl, rfl⟩
  | true =>
    have hthere : isFile (s.agentBinary p) w = .ok true w := by
      change EStateM.Result.ok (w.files.isFile (s.agentBinary p).bytes) w = _
      rw [hfile]
    have hrest : Plain (σ := σ) (do
        let size := (← read (s.agentBinary p)).length
        let sha256 ← digest (s.agentBinary p)
        report (.success s!"{(s.agentBinary p).text} ({size} bytes)")
        report (.verbose s!"SHA256: {sha256}")
        return (⟨p, s.agentBinary p, archive, size, sha256⟩ : Artifact)) :=
      (Plain.read _).bind fun _ ↦ ((Plain.read _).bind fun _ ↦ .pure _).bind fun _ ↦
        (Plain.report _).bind fun _ ↦ (Plain.report _).bind fun _ ↦ .pure _
    exact .inl (hrest.plain w e w' ((bind_of_ok hthere).symm.trans h))

theorem archive_of_handOver {archive : Path} (h : handOver env s v p w = .ok archive w') :
    archive = slotArchive s.stagingRoot p := by
  obtain ⟨cleared, left, -, -, harchive⟩ := handOver_ok h
  exact archive_of_archiveBundle harchive

/-- The packaging of some platforms and, for one more, up to the end of its agent's publish. -/
def untilAgent (env : Surroundings σ) (s : Settings) (v : Version) (before : List Platform)
    (p : Platform) : Session σ Unit := do
  let _ ← packageEach env s v before
  let archive ← handOver env s v p
  publishAgent env s v archive p

def Unfound (env : Surroundings σ) (s : Settings) (v : Version) (ps : List Platform) (w : World σ)
    (e : ReleaseError) : Prop :=
  ∃ before p later w₁, ps = before ++ p :: later ∧ untilAgent env s v before p w = .ok () w₁ ∧
    w₁.files.isFile (s.agentBinary p).bytes = false ∧
    e = .artifactNotFound p.id (s.agentBinary p)

theorem untilAgent_cons {a : Artifact} (before : List Platform) (q : Platform)
    (h : packagePlatform env s v p w = .ok a w') :
    untilAgent env s v (p :: before) q w = untilAgent env s v before q w' := by
  simp only [untilAgent, packageEach, bind_assoc, pure_bind]
  exact bind_of_ok h

theorem accounted_packagePlatform :
    Accounted (Blames s v) (fun e ↦ e.isVerdict = false ∨ Unfound env s v [p] w e)
      (packagePlatform env s v p) w := by
  rw [packagePlatform_eq]
  refine .bind (accounted_handOver fun _ ↦ .inl) fun archive w₁ hover ↦ ?_
  obtain rfl := archive_of_handOver hover
  refine .bind (.of_isCommand (isCommand_publishAgent env s v _ p) fun a ↦ .agent p rfl) ?_
  intro _ w₂ hagent
  refine .of_silent (silent_verify s _ p) fun e w₃ hverify ↦ ?_
  obtain hplain | ⟨habsent, he⟩ := verify_error hverify
  · exact .inl hplain
  · exact .inr ⟨[], p, [], w₂, rfl, bind_eq_ok.2 ⟨[], w, rfl, bind_eq_ok.2 ⟨_, w₁, hover, hagent⟩⟩,
      habsent, he⟩

theorem accounted_packageEach (ps : List Platform) (w : World σ) :
    Accounted (Blames s v) (fun e ↦ e.isVerdict = false ∨ Unfound env s v ps w e)
      (packageEach env s v ps) w := by
  induction ps generalizing w with
  | nil => exact .pure []
  | cons p ps ih =>
    refine .bind (accounted_packagePlatform.mono (fun _ _ h ↦ h) ?_) fun a w₁ hp ↦ ?_
    · intro e he
      refine he.imp_right fun h ↦ ?_
      obtain ⟨before, q, later, w₂, hps, huntil, habsent, rfl⟩ := h
      obtain ⟨rfl, hps⟩ | ⟨_, rfl, hps⟩ := List.cons_eq_append_iff.1 hps
      · cases hps
        exact ⟨[], _, ps, w₂, rfl, huntil, habsent, rfl⟩
      · simp at hps
    · refine .bind ((ih w₁).mono (fun _ _ h ↦ h) ?_) fun artifacts _ _ ↦ .pure (a :: artifacts)
      intro e he
      refine he.imp_right fun h ↦ ?_
      obtain ⟨before, q, later, w₂, rfl, huntil, habsent, rfl⟩ := h
      exact ⟨p :: before, q, later, w₂, rfl, (untilAgent_cons before q hp).trans huntil, habsent, rfl⟩

end Packaging

namespace Image

inductive Blames (request : BuildRequest) (c : Call) : ReleaseError → Prop
  | daemon : c.command = infoCommand → Blames request c (daemonFailure c.result)
  | build : c.command = request.command → Blames request c (buildFailure request c.result)
  | tag (latest : ImageReference) : c.command = tagCommand request.image latest →
      Blames request c (tagFailure request.image latest c.result)

theorem Building.answers {own : ReleaseError → Prop} {request : BuildRequest} {cs : List Call}
    {r : Except ReleaseError BuiltImage} (h : Building request cs r) :
    Answers (Blames request) own (cs.map .call) r := by
  cases h with
  | unreachable hr => exact .of_last [] (by simp) (Call.succeeded_eq_false hr) (.daemon rfl)
  | unbuilt hr =>
    exact .of_last [.call (.done .captured infoCommand)] (by simp) (Call.succeeded_eq_false hr)
      (.build rfl)
  | @untagged latest _ _ hr =>
    exact .of_last [.call (.done .captured infoCommand),
      .call (.done .captured request.command)] (by simp) (Call.succeeded_eq_false hr)
      (.tag latest rfl)
  | tagged _ => exact .well _ (by simp)
  | built _ => exact .well _ (by simp)

end Image

namespace Publish

inductive Blames (primary : ImageReference) (c : Call) : ReleaseError → Prop
  | login : c.command = loginCommand primary.registryHost →
      Blames primary c (.loginFailed primary.registryHost primary.text)
  | push (reference : String) (published : List String) : c.command = pushCommand reference →
      Blames primary c (.pushFailed reference published)

theorem Pushing.answers {own : ReleaseError → Prop} {primary : ImageReference}
    {published left : List String} {cs : List Call} {r : Except ReleaseError (List String)}
    (h : Pushing published left cs r) : Answers (Blames primary) own (cs.map .call) r := by
  induction h with
  | finished published => exact .well _ (by simp)
  | @pushed _ reference _ _ _ _ ih =>
    exact ih.prepend [.call (.done .captured (pushCommand reference))] (by simp)
  | failed published left ha =>
    exact .of_last [] (by simp) (Call.succeeded_eq_false ha) (.push _ published rfl)

def Unattended (interactive : Bool) (found : Except ReleaseError Bool) (image : BuiltImage)
    (options : PublishOptions) (e : ReleaseError) : Prop :=
  options.noPush = false ∧ options.skipLoginCheck = false ∧ found = .ok false ∧
    interactive = false ∧ e = .authenticationRequired image.primary.registryHost image.primary.text

theorem Publishing.answers {interactive : Bool} {found : Except ReleaseError Bool}
    {image : BuiltImage} {options : PublishOptions} {xs : List Exchange}
    {r : Except ReleaseError PublishOutcome} (h : Publishing interactive found image options xs r)
    (hfound : ∀ e, found = .error e → e.isVerdict = false) :
    Answers (Blames image.primary)
      (fun e ↦ e.isVerdict = false ∨ Unattended interactive found image options e) xs r := by
  cases h with
  | skipped _ => exact .well _ (by simp)
  | unchecked hcs => exact hcs.answers.map _
  | unreadable he => exact .own (by simp) (.inl (hfound _ he))
  | known _ hcs => exact hcs.answers.map _
  | unattended hnone hnobody => exact .own (by simp) (.inr ⟨rfl, rfl, hnone, hnobody, rfl⟩)
  | declined _ _ => exact .well _ (by simp)
  | refused _ _ ha =>
    exact .of_last [.asked (loginQuestion image.primary.registryHost) true] (by simp)
      (Call.succeeded_eq_false ha) (.login rfl)
  | loggedIn _ _ hcs =>
    exact (hcs.answers.map _).prepend [.asked (loginQuestion image.primary.registryHost) true,
      .call (.done .interactive (loginCommand image.primary.registryHost))] (by simp)

theorem isVerdict_of_credentialsFound {credentials : Option Path} {fs : FileSystem} {host : String}
    {e : ReleaseError} (h : credentialsFound credentials fs host = .error e) :
    e.isVerdict = false := by
  obtain ⟨path, hunusable⟩ := unusable_of_credentialsFound h
  cases hunusable <;> rfl

end Publish

namespace Pipeline

open Image Publish

variable {env : Surroundings σ} {credentials : Option Path} {plan : Plan} {v : Version}
  {w w' : World σ} {e : ReleaseError}

/-- The error for which a command of a run is to blame when it does not succeed. -/
inductive Blames (plan : Plan) (v : Version) (c : Call) : ReleaseError → Prop
  | packaging {p : PackagePlan} {e : ReleaseError} : plan.package = some p →
      Packaging.Blames p.settings v c e → Blames plan v c e
  | building {i : ImagePlan} {e : ReleaseError} : plan.image = some i →
      Image.Blames (i.request v) c e → Blames plan v c e
  | publishing {i : ImagePlan} {e : ReleaseError} : plan.image = some i →
      Publish.Blames (i.reference v) c e → Blames plan v c e

def announce (plan : PackagePlan) (v : Version) : Session σ (List Platform) := do
  let s := plan.settings
  let platforms ← orThrow (Platform.resolve plan.selector s.host)
  reportAll (Platform.hostWarnings plan.selector s.host)
  reportAll
    [.heading "Packaging",
      .detail s!"Version:   {v.text}",
      .detail ("Platforms: " ++ Text.join ", " (platforms.map Platform.id)),
      .detail s!"Output:    {s.outputRoot.text}"]
  return platforms

theorem runPackage_eq (env : Surroundings σ) (plan : PackagePlan) (v : Version) :
    runPackage env plan v = (do
      let platforms ← announce plan v
      Packaging.package env plan.settings platforms v) := by
  simp only [runPackage, announce, bind_assoc, pure_bind]

theorem plain_announce (plan : PackagePlan) (v : Version) :
    Plain (announce plan v : Session σ (List Platform)) := by
  have hreports (reports : List Report) : Plain (reportAll reports : Session σ Unit) :=
    ⟨Silent.record_reported reports, fun _ _ _ h ↦ by cases h⟩
  refine (Plain.orThrow ?_).bind fun _ ↦ (hreports _).bind fun _ ↦ (hreports _).bind fun _ ↦ .pure _
  intro e h
  unfold Platform.resolve at h
  split at h
  · cases h
  · split at h <;> cases h
    rfl

theorem resolve_of_announce {plan : PackagePlan} {ps : List Platform}
    (h : announce plan v w = .ok ps w') :
    Platform.resolve plan.selector plan.settings.host = .ok ps := by
  obtain ⟨platforms, w₁, hresolve, h⟩ := bind_eq_ok.1 h
  obtain ⟨_, w₂, -, h⟩ := bind_eq_ok.1 h
  obtain ⟨_, w₃, -, h⟩ := bind_eq_ok.1 h
  cases h
  cases hps : Platform.resolve plan.selector plan.settings.host with
  | ok qs =>
    rw [hps] at hresolve
    cases hresolve
    rfl
  | error e =>
    rw [hps] at hresolve
    cases hresolve

theorem produce_of_version (env : Surroundings σ) (hv : Version.parse plan.version = .ok v) :
    produce env plan = (do
      report (.verbose s!"Version {v.text} (file version {v.fileVersion})")
      let package ← packagePlanned env v plan.package
      let image ← buildPlanned env v plan.image
      return ⟨v, package, image⟩) := by
  unfold produce
  rw [hv]
  rfl

def untilAgent (env : Surroundings σ) (v : Version) (plan : PackagePlan) (before : List Platform)
    (p : Platform) : Session σ Unit := do
  report (.verbose s!"Version {v.text} (file version {v.fileVersion})")
  let _ ← announce plan v
  Packaging.cleanIf plan.settings
  Packaging.untilAgent env plan.settings v before p

def Unfound (env : Surroundings σ) (v : Version) (plan : Plan) (w : World σ) (e : ReleaseError) :
    Prop :=
  ∃ pp before p later w₁, plan.package = some pp ∧
    Platform.resolve pp.selector pp.settings.host = .ok (before ++ p :: later) ∧
    untilAgent env v pp before p w = .ok () w₁ ∧
    w₁.files.isFile (pp.settings.agentBinary p).bytes = false ∧
    e = .artifactNotFound p.id (pp.settings.agentBinary p)

/-- The image was built and is to be pushed, the registry does not know the operator, and there is
nobody to ask. -/
def Unattended (env : Surroundings σ) (credentials : Option Path) (plan : Plan) (v : Version)
    (w : World σ) (e : ReleaseError) : Prop :=
  ∃ i, plan.image = some i ∧ i.publish.noPush = false ∧ i.publish.skipLoginCheck = false ∧
    Finds env credentials plan w (.ok false) ∧ env.interactive = false ∧
    e = .authenticationRequired (i.reference v).registryHost (i.reference v).text

theorem accounted_package (s : Settings) (ps : List Platform) :
    Accounted (Packaging.Blames s v) (fun e ↦ e.isVerdict = false ∨
        ∃ w₁, Packaging.cleanIf s w = .ok () w₁ ∧ Packaging.Unfound env s v ps w₁ e)
      (Packaging.package env s ps v) w := by
  rw [Packaging.package_eq]
  have hclean : Plain (Packaging.cleanIf s : Session σ Unit) := by
    unfold Packaging.cleanIf
    cases s.clean with
    | true => exact Packaging.plain_clean s
    | false => exact .pure ()
  refine .bind (.of_plain hclean fun _ ↦ .inl) fun _ w₁ hw ↦ ?_
  refine .bind ((Packaging.accounted_packageEach ps w₁).mono (fun _ _ h ↦ h) ?_) fun artifacts _ _ ↦ ?_
  · exact fun e he ↦ he.imp_right fun h ↦ ⟨w₁, hw, h⟩
  · exact .of_plain ((Packaging.plain_markVersion s v).bind fun _ ↦ .pure _) fun _ ↦ .inl

theorem accounted_produce (hv : Version.parse plan.version = .ok v) :
    Accounted (Blames plan v) (fun e ↦ e.isVerdict = false ∨ Unfound env v plan w e)
      (produce env plan) w := by
  rw [produce_of_version env hv]
  refine .bind (.of_plain (.report _) fun _ ↦ .inl) fun _ w₀ hreport ↦ .bind ?_ fun made w₁ _ ↦ ?_
  · cases hp : plan.package with
    | none => exact .pure none
    | some pp =>
      change Accounted _ _ (some <$> runPackage env pp v) w₀
      rw [map_eq_pure_bind, runPackage_eq]
      refine .bind (.bind (.of_plain (plain_announce pp v) fun _ ↦ .inl) fun ps wₐ hannounce ↦ ?_)
        fun _ _ _ ↦ .pure _
      refine (accounted_package pp.settings ps).mono (fun c e ↦ .packaging hp) ?_
      intro e he
      refine he.imp_right fun h ↦ ?_
      obtain ⟨w₂, hclean, before, p, later, w₃, rfl, huntil, habsent, rfl⟩ := h
      refine ⟨pp, before, p, later, w₃, hp, resolve_of_announce hannounce, ?_, habsent, rfl⟩
      exact bind_eq_ok.2 ⟨_, _, hreport, bind_eq_ok.2 ⟨_, _, hannounce,
        bind_eq_ok.2 ⟨_, _, hclean, huntil⟩⟩⟩
  · refine .bind ?_ fun _ _ _ ↦ .pure _
    refine (ends_buildPlanned env v plan w₁).mono fun xs r _ h ↦ ?_
    obtain ⟨-, rfl, rfl⟩ | ⟨i, hi, ⟨-, rfl, rfl⟩ | ⟨consent, ds, s, hagreed, hds, rfl, rfl⟩⟩ := h
    · exact .well none (by simp)
    · exact .well none (by simp)
    · have hbuilding : Answers (Blames plan v)
          (fun e ↦ e.isVerdict = false ∨ Unfound env v plan w e) (ds.map .call) s :=
        hds.answers.mono (fun c e ↦ .building hi) fun _ h ↦ h
      exact (hbuilding.map some).prepend _ (by simp [hagreed.calls_eq])

theorem image_of_produce {products : Products} {image : BuiltImage}
    (hv : Version.parse plan.version = .ok v) (h : produce env plan w = .ok products w')
    (himage : products.image = some image) :
    ∃ i, plan.image = some i ∧ image = ⟨i.reference v, (i.reference v).latestAlias⟩ := by
  have hproducing := (ends_produce env plan w).exchanged
  rw [result_of_ok h] at hproducing
  generalize exchanged (produce env plan) w = xs at hproducing
  generalize hr : (Except.ok products : Except ReleaseError Products) = r at hproducing
  cases hproducing with
  | refused _ | unpackaged _ _ => cases hr
  | imageless _ _ _ | cancelled _ _ _ _ =>
    cases hr
    cases himage
  | @agreed v' cs ds package i consent s hv' _ hi _ hds =>
    rw [hv] at hv'
    cases hv'
    cases s with
    | error e => cases hr
    | ok built =>
      cases hr
      cases himage
      exact ⟨i, hi, hds.image_eq⟩

/-- How a whole run answers for its end. -/
theorem answers_run (env : Surroundings σ) (credentials : Option Path) {plan : Plan} {v : Version}
    (hv : Version.parse plan.version = .ok v) (w : World σ) :
    Answers (Blames plan v) (fun e ↦ e.isVerdict = false ∨ Unfound env v plan w e ∨
        Unattended env credentials plan v w e)
      (exchanged (run env credentials plan) w) (result (run env credentials plan) w) := by
  suffices haccounted : Accounted (Blames plan v) (fun e ↦ e.isVerdict = false ∨
      Unfound env v plan w e ∨ Unattended env credentials plan v w e)
      (run env credentials plan) w from Ends.exchanged haccounted
  refine .bind ((accounted_produce hv).mono (fun _ _ h ↦ h) fun e he ↦ he.imp_right .inl) ?_
  intro products w₁ hproduce
  refine .bind ?_ fun _ _ _ ↦ .pure _
  cases himage : products.image with
  | none => cases plan.image <;> exact .pure _
  | some image =>
    obtain ⟨i, hi, rfl⟩ := image_of_produce hv hproduce himage
    rw [hi]
    refine .bind ?_ fun _ _ _ ↦ .pure _
    refine (ends_publish env credentials _ i.publish w₁).mono fun xs r _ h ↦ ?_
    refine (h.answers fun _ ↦ isVerdict_of_credentialsFound).mono (fun c e ↦ .publishing hi) ?_
    intro e he
    refine he.imp_right fun h ↦ .inr ?_
    obtain ⟨hpush, hcheck, hfound, hnobody, rfl⟩ := h
    exact ⟨i, hi, hpush, hcheck, ⟨products, _, w₁, hproduce, himage, hfound⟩, hnobody, rfl⟩

end Pipeline

end ReleaseTrain
