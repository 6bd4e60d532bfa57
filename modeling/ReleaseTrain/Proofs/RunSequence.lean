import ReleaseTrain.Proofs.RunCourse

namespace ReleaseTrain

open Session

namespace ImageReference

theorem latestAlias_of_production {r : ImageReference} (h : isProductionTag r.tag = true) :
    r.latestAlias = some (r.withTag latestTag) := if_pos h

theorem latestAlias_of_not_production {r : ImageReference} (h : isProductionTag r.tag = false) :
    r.latestAlias = none := if_neg (Bool.eq_false_iff.1 h)

theorem latestAlias_eq_some {r latest : ImageReference} :
    r.latestAlias = some latest ↔ isProductionTag r.tag = true ∧ latest = r.withTag latestTag := by
  cases h : isProductionTag r.tag with
  | true => simp [latestAlias_of_production h, eq_comm]
  | false => simp [latestAlias_of_not_production h]

theorem map_latestAlias {β : Type} (f : ImageReference → β) (r : ImageReference) :
    r.latestAlias.toList.map f =
      if isProductionTag r.tag = true then [f (r.withTag latestTag)] else [] := by
  cases h : isProductionTag r.tag with
  | true =>
    rw [latestAlias_of_production h]
    rfl
  | false =>
    rw [latestAlias_of_not_production h]
    rfl

end ImageReference

namespace Image

def buildCommands (request : BuildRequest) : List (Mode × Invocation) :=
  (.captured, infoCommand) :: (.captured, request.command) ::
    request.image.latestAlias.toList.map fun latest ↦
      (.captured, tagCommand request.image latest)

theorem Building.image_eq {request : BuildRequest} {cs : List Call} {image : BuiltImage}
    (h : Building request cs (.ok image)) : image = ⟨request.image, request.image.latestAlias⟩ := by
  generalize hr : (Except.ok image : Except ReleaseError BuiltImage) = r at h
  cases h with
  | unreachable _ | unbuilt _ | untagged _ _ => cases hr
  | tagged halias | built halias =>
    cases hr
    rw [halias]

theorem Building.inTurn {request : BuildRequest} {cs : List Call}
    {r : Except ReleaseError BuiltImage} (h : Building request cs r) :
    InTurn (buildCommands request) cs r.isOk := by
  unfold buildCommands
  cases h with
  | unreachable ha => exact .failed_of_ne _ ha
  | unbuilt ha => exact .done (.failed_of_ne _ ha)
  | untagged halias ha =>
    rw [halias]
    exact .done (.done (.failed_of_ne _ ha))
  | tagged halias =>
    rw [halias]
    exact .done (.done (.done .finished))
  | built halias =>
    rw [halias]
    exact .done (.done .finished)

end Image

namespace Publish

/-- A login if the operator agreed to it, a push of the image's own reference and one of its second;
nothing where nothing is to be pushed or the operator did not want to log in. -/
def commands (image : BuiltImage) (options : PublishOptions) (agreed : Option Bool) :
    List (Mode × Invocation) :=
  if options.noPush = true ∨ agreed = some false then []
  else
    (if agreed = some true then
      [(.interactive, loginCommand image.primary.registryHost)] else []) ++
      (.captured, pushCommand image.primary.text) ::
        image.latest.toList.map fun latest ↦ (.captured, pushCommand latest.text)

theorem commands_eq_references (image : BuiltImage) (options : PublishOptions)
    (agreed : Option Bool) :
    commands image options agreed =
      if options.noPush = true ∨ agreed = some false then []
      else
        (if agreed = some true then
          [(.interactive, loginCommand image.primary.registryHost)] else []) ++
          image.references.map fun reference ↦ (.captured, pushCommand reference.text) := rfl

theorem Pushing.inTurn {published left : List String} {cs : List Call}
    {r : Except ReleaseError (List String)} (h : Pushing published left cs r) :
    InTurn (left.map fun reference ↦ (.captured, pushCommand reference)) cs r.isOk := by
  induction h with
  | finished published => exact .finished
  | pushed _ ih => exact .done ih
  | failed published left ha => exact .failed_of_ne _ ha

theorem Publishing.inTurn {interactive : Bool} {found : Except ReleaseError Bool}
    {image : BuiltImage} {options : PublishOptions} {xs : List Exchange}
    {r : Except ReleaseError PublishOutcome} (h : Publishing interactive found image options xs r) :
    InTurn (commands image options (answerTo? (loginQuestion image.primary.registryHost) xs))
      (calls xs) r.isOk := by
  have hpush {cs : List Call} {s : Except ReleaseError (List String)}
      (hcs : Pushing [] (image.references.map ImageReference.text) cs s) :
      InTurn (image.references.map fun reference ↦ (.captured, pushCommand reference.text)) cs
        (s.map PublishOutcome.pushed).isOk := by
    have h := hcs.inTurn
    rw [List.map_map] at h
    cases s <;> exact h
  rw [commands_eq_references]
  cases h with
  | skipped _ => exact .finished
  | unchecked hcs | known _ hcs =>
    rw [answerTo?_map_call, calls_map_call]
    exact hpush hcs
  | unreadable _ | unattended _ _ => exact .stopped _
  | declined _ _ =>
    rw [answerTo?_asked, if_pos rfl]
    exact .finished
  | refused _ _ ha =>
    rw [answerTo?_asked, if_pos rfl]
    exact .failed_of_ne _ ha
  | loggedIn _ _ hcs =>
    rw [answerTo?_asked, if_pos rfl, calls_asked, calls_call, calls_map_call]
    exact .done (hpush hcs)

theorem Publishing.asked_iff {interactive : Bool} {found : Except ReleaseError Bool}
    {image : BuiltImage} {options : PublishOptions} {xs : List Exchange}
    {r : Except ReleaseError PublishOutcome}
    (h : Publishing interactive found image options xs r) :
    (answerTo? (loginQuestion image.primary.registryHost) xs).isSome = true ↔
      options.noPush = false ∧ options.skipLoginCheck = false ∧ interactive = true ∧
        found = .ok false := by
  cases h with
  | skipped _ => simp
  | unchecked _ => simp
  | unreadable hfound => simp [hfound]
  | known hfound _ => simp [hfound]
  | unattended _ hinteractive => simp [hinteractive]
  | declined hfound hinteractive | refused hfound hinteractive _ => simp [hfound, hinteractive]
  | loggedIn hfound hinteractive _ => simp [hfound, hinteractive]

end Publish

/-- The commands of the image stage: none after a build that was declined. The second tag and the
second push are those of a production tag. -/
def ImagePlan.commands (i : ImagePlan) (v : Version) (answer : String → Option Bool) :
    List (Mode × Invocation) :=
  let primary := ImageReference.new i.registry i.name (i.tag.getD v.text)
  let latest := primary.withTag "latest"
  let login := answer (Publish.loginQuestion primary.registryHost)
  if answer Pipeline.buildQuestion = some false then []
  else
    (.captured, infoCommand) :: (.captured, (i.request v).command) ::
      ((if isProductionTag primary.tag = true then [(.captured, tagCommand primary latest)]
          else []) ++
        if i.publish.noPush = true ∨ login = some false then []
        else
          (if login = some true then [(.interactive, loginCommand primary.registryHost)] else []) ++
            (.captured, pushCommand primary.text) ::
              if isProductionTag primary.tag = true then [(.captured, pushCommand latest.text)]
              else [])

theorem ImagePlan.commands_eq (i : ImagePlan) (v : Version) (answer : String → Option Bool) :
    i.commands v answer =
      if answer Pipeline.buildQuestion = some false then []
      else Image.buildCommands (i.request v) ++
        Publish.commands ⟨i.reference v, (i.reference v).latestAlias⟩ i.publish
          (answer (Publish.loginQuestion (i.reference v).registryHost)) := by
  have htag := ImageReference.map_latestAlias
    (fun latest ↦ (Mode.captured, tagCommand (i.reference v) latest)) (i.reference v)
  have hpush := ImageReference.map_latestAlias
    (fun latest ↦ (Mode.captured, pushCommand latest.text)) (i.reference v)
  unfold ImagePlan.commands Image.buildCommands Publish.commands
  simp only [ImagePlan.request, htag, hpush, List.cons_append]
  rfl

def Plan.commands (plan : Plan) (answer : String → Option Bool) : List (Mode × Invocation) :=
  match Version.parse plan.version with
  | .ok v => plan.packagingSteps v ++ (plan.image.map fun i ↦ i.commands v answer).getD []
  | .error _ => []

theorem Plan.commands_of_image {plan : Plan} {v : Version} {i : ImagePlan}
    (hv : Version.parse plan.version = .ok v) (hi : plan.image = some i)
    (answer : String → Option Bool) :
    plan.commands answer = plan.packagingSteps v ++ i.commands v answer := by
  rw [Plan.commands, hv, hi]
  rfl

theorem Plan.commands_of_imageless {plan : Plan} {v : Version}
    (hv : Version.parse plan.version = .ok v) (hi : plan.image = none)
    (answer : String → Option Bool) : plan.commands answer = plan.packagingSteps v := by
  rw [Plan.commands, hv, hi]
  exact List.append_nil _

/-- What the commands of the image stage are. -/
structure ImagePlan.Wording (i : ImagePlan) (v : Version) : Prop where
  info : ["docker", "info"] <+: infoCommand.words
  build :
    (if ',' ∈ i.platform.toList then ["docker", "buildx", "build"] else ["docker", "build"]) <+:
      (i.request v).command.words
  built : ["-t", (i.reference v).text] <:+: (i.request v).command.words
  tag (source target : ImageReference) :
    (tagCommand source target).words = ["docker", "tag", source.text, target.text]
  login (host : String) : (loginCommand host).words = ["docker", "login", host]
  push (reference : String) : (pushCommand reference).words = ["docker", "push", reference]

theorem ImagePlan.wording (i : ImagePlan) (v : Version) : i.Wording v where
  info := ⟨_, rfl⟩
  build := by
    unfold BuildRequest.command Invocation.words
    split
    · rename_i hcomma
      have hmulti : (i.request v).isMultiPlatform = true := List.contains_iff_mem.2 hcomma
      simp [hmulti]
    · rename_i hcomma
      have hmulti : (i.request v).isMultiPlatform = false :=
        Bool.eq_false_iff.2 fun h ↦ hcomma (List.contains_iff_mem.1 h)
      simp [hmulti]
  built := by
    let kind := if (i.request v).isMultiPlatform then ["buildx", "build"] else ["build"]
    let named := ["--platform", i.platform, "-f", i.dockerfile.text, "--build-arg",
      s!"BUILD_CONFIGURATION={i.buildConfiguration}", "--build-arg", s!"CURRENT_VERSION={v.text}"]
    let tagged := ["-t", (i.reference v).text]
    let cache := if i.noCache then ["--no-cache"] else []
    have hwords : (i.request v).command.words =
        "docker" :: (kind ++ (named ++ tagged) ++ cache ++ [i.context.text]) := rfl
    rw [hwords]
    exact ⟨"docker" :: (kind ++ named), cache ++ [i.context.text], by simp [tagged]⟩
  tag _ _ := rfl
  login _ := rfl
  push _ := rfl
namespace Pipeline

open Image Publish

theorem loginQuestion_ne_buildQuestion (host : String) : loginQuestion host ≠ buildQuestion := by
  intro h
  have hchars := congrArg String.toList h
  have hlogin : loginQuestion host = "Not logged in to " ++ host ++ ". Log in now?" := rfl
  rw [hlogin, String.toList_append, String.toList_append] at hchars
  have hhead : some 'N' = some 'C' := congrArg List.head? hchars
  cases hhead

theorem answerTo?_buildQuestion_of_publishing {interactive : Bool}
    {found : Except ReleaseError Bool} {image : BuiltImage} {options : PublishOptions}
    {xs : List Exchange} {r : Except ReleaseError PublishOutcome}
    (h : Publishing interactive found image options xs r) : answerTo? buildQuestion xs = none := by
  have hne := loginQuestion_ne_buildQuestion image.primary.registryHost
  cases h with
  | skipped _ | unreadable _ | unattended _ _ => rfl
  | unchecked _ | known _ _ => exact answerTo?_map_call _ _
  | declined _ _ | refused _ _ _ =>
    rw [answerTo?_asked, if_neg hne]
    rfl
  | loggedIn _ _ _ =>
    rw [answerTo?_asked, if_neg hne]
    exact answerTo?_map_call _ _

theorem Agreed.answerTo?_buildQuestion {assumeYes : Bool} {xs : List Exchange}
    (h : Agreed assumeYes xs) : answerTo? buildQuestion xs ≠ some false := by
  cases h with
  | beforehand => simp
  | asked => simp

theorem Agreed.answerTo?_loginQuestion {assumeYes : Bool} {xs : List Exchange}
    (h : Agreed assumeYes xs) (host : String) : answerTo? (loginQuestion host) xs = none := by
  cases h with
  | beforehand => rfl
  | asked =>
    rw [answerTo?_asked, if_neg (loginQuestion_ne_buildQuestion host).symm]
    rfl

theorem Agreed.calls_eq {assumeYes : Bool} {xs : List Exchange} (h : Agreed assumeYes xs) :
    calls xs = [] := by
  cases h <;> rfl

theorem commands_agreed {i : ImagePlan} {consent ys : List Exchange} (v : Version)
    (cs ds : List Call) (hagreed : Agreed i.assumeYes consent)
    (hys : answerTo? buildQuestion ys = none) :
    i.commands v (answerTo? · (cs.map .call ++ (consent ++ ds.map .call) ++ ys)) =
      buildCommands (i.request v) ++ Publish.commands ⟨i.reference v, (i.reference v).latestAlias⟩
        i.publish (answerTo? (loginQuestion (i.reference v).registryHost) ys) := by
  have hbuild : answerTo? buildQuestion (cs.map .call ++ (consent ++ ds.map .call) ++ ys) ≠
      some false := by
    simpa [hys] using hagreed.answerTo?_buildQuestion
  rw [ImagePlan.commands_eq, if_neg hbuild]
  simp [hagreed.answerTo?_loginQuestion]

theorem Course.inTurn {σ : Type} {env : Surroundings σ} {credentials : Option Path} {plan : Plan}
    {w : World σ} {xs : List Exchange} {r : Except ReleaseError RunOutcome}
    (h : Course env credentials plan w xs r) :
    InTurn (plan.commands (answerTo? · xs)) (calls xs) r.isOk := by
  cases h with
  | refused _ _ => exact .stopped _
  | unpackaged _ hv hcs =>
    rw [calls_map_call, Plan.commands, hv]
    exact hcs.append_planned _
  | imageless _ hv hcs hi =>
    rw [calls_map_call, Plan.commands_of_imageless hv hi]
    exact hcs
  | @cancelled v cs _ i _ _ hv hcs hi _ =>
    have hno : answerTo? buildQuestion (cs.map .call ++ [.asked buildQuestion false]) =
        some false := by simp
    rw [Plan.commands_of_image hv hi, ImagePlan.commands_eq, if_pos hno, calls_append,
      calls_map_call]
    exact hcs.append .finished
  | @unbuilt v cs ds i consent e _ _ hv hcs hi hagreed hds =>
    have h := commands_agreed v cs ds hagreed (answerTo?_nil _)
    rw [List.append_nil] at h
    rw [Plan.commands_of_image hv hi, h, calls_append, calls_append, calls_map_call,
      calls_map_call, hagreed.calls_eq]
    exact hcs.append (hds.inTurn.append_planned _)
  | @published v cs ds package i consent ys image _ s _ hv hcs hi hagreed hds hys =>
    have himage := hds.image_eq
    subst himage
    rw [Plan.commands_of_image hv hi,
      commands_agreed v cs ds hagreed (answerTo?_buildQuestion_of_publishing hys), calls_append,
      calls_append, calls_append, calls_map_call, calls_map_call, hagreed.calls_eq,
      List.append_assoc]
    have hpublish := hys.inTurn
    refine hcs.append (hds.inTurn.append ?_)
    cases s <;> exact hpublish

/-- An image has been built, and when publishing begins this is found of credentials for its
registry. -/
def Finds {σ : Type} (env : Surroundings σ) (credentials : Option Path) (plan : Plan)
    (w : World σ) (found : Except ReleaseError Bool) : Prop :=
  ∃ p image w₁, produce env plan w = .ok p w₁ ∧ p.image = some image ∧
    credentialsFound credentials w₁.files image.primary.registryHost = found

/-- An image is to be pushed, the login check is on, somebody can be asked, and no credentials are
found. -/
def LoginNeeded {σ : Type} (env : Surroundings σ) (credentials : Option Path) (plan : Plan)
    (i : ImagePlan) (w : World σ) : Prop :=
  i.publish.noPush = false ∧ i.publish.skipLoginCheck = false ∧ env.interactive = true ∧
    Finds env credentials plan w (.ok false)

theorem Course.asked_iff {σ : Type} {env : Surroundings σ} {credentials : Option Path}
    {plan : Plan} {w : World σ} {xs : List Exchange} {r : Except ReleaseError RunOutcome}
    (h : Course env credentials plan w xs r) {i : ImagePlan} {v : Version}
    (hi : plan.image = some i) (hv : Version.parse plan.version = .ok v) :
    (answerTo? (loginQuestion (i.reference v).registryHost) xs).isSome = true ↔
      LoginNeeded env credentials plan i w := by
  -- In every course but the last one nothing is published: nobody is asked to log in, and there is
  -- no image that credentials could be looked up for.
  have hunasked {zs : List Exchange}
      (hzs : answerTo? (loginQuestion (i.reference v).registryHost) zs = none)
      (hw : ∀ p image w₁, produce env plan w = .ok p w₁ → p.image ≠ some image) :
      (answerTo? (loginQuestion (i.reference v).registryHost) zs).isSome = true ↔
        LoginNeeded env credentials plan i w := by
    constructor
    · intro h
      rw [hzs] at h
      cases h
    · intro h
      obtain ⟨-, -, -, p, image, w₁, hp, himage, -⟩ := h
      exact absurd himage (hw p image w₁ hp)
  have hne := (loginQuestion_ne_buildQuestion (i.reference v).registryHost).symm
  cases h with
  | refused hw _ =>
    refine hunasked rfl fun p image w₁ hp ↦ ?_
    rw [hw] at hp
    cases hp
  | unpackaged hw _ _ =>
    refine hunasked (answerTo?_map_call _ _) fun p image w₁ hp ↦ ?_
    rw [hw] at hp
    cases hp
  | imageless _ _ _ hnone =>
    rw [hi] at hnone
    cases hnone
  | cancelled hw _ _ _ _ =>
    refine hunasked (by simp [hne]) fun p image w₁ hp ↦ ?_
    rw [hw] at hp
    cases hp
    simp
  | unbuilt hw _ _ _ hagreed _ =>
    refine hunasked (by simp [hagreed.answerTo?_loginQuestion]) fun p image w₁ hp ↦ ?_
    rw [hw] at hp
    cases hp
  | @published v' cs ds _ j consent ys image w₁ s hw hv' _ hi' hagreed hds hys =>
    rw [hi] at hi'
    cases hi'
    rw [hv] at hv'
    cases hv'
    have himage := hds.image_eq
    subst himage
    have hasked := hys.asked_iff
    have hys' : answerTo? (loginQuestion (i.reference v).registryHost)
        (cs.map .call ++ (consent ++ ds.map .call) ++ ys) =
        answerTo? (loginQuestion (i.reference v).registryHost) ys := by
      simp [hagreed.answerTo?_loginQuestion]
    rw [hys', LoginNeeded]
    refine hasked.trans ?_
    constructor
    · intro h
      obtain ⟨hpush, hcheck, hinteractive, hfound⟩ := h
      exact ⟨hpush, hcheck, hinteractive, _, _, _, hw, rfl, hfound⟩
    · intro h
      obtain ⟨hpush, hcheck, hinteractive, p, image, w', hp, himage, hfound⟩ := h
      rw [hw] at hp
      cases hp
      cases himage
      exact ⟨hpush, hcheck, hinteractive, hfound⟩

end Pipeline

end ReleaseTrain
