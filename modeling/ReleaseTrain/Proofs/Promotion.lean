import ReleaseTrain.Proofs.IssuedCommands
import ReleaseTrain.Proofs.VersionGrammar
import ReleaseTrain.Rehearsal

namespace ReleaseTrain

open Session

theorem slash_notMem_firstSegment (cs : List Char) : '/' ∉ firstSegment cs := by
  intro hmem
  have hne := List.all_eq_true.1 List.all_takeWhile '/' hmem
  simp at hne

namespace ImageReference

/-- What stands before the tag of a reference. -/
def stem (r : ImageReference) : String :=
  let registry := withoutScheme r.registry.toList
  if registry.isEmpty then r.name ++ ":" else .ofList registry ++ "/" ++ r.name ++ ":"

theorem text_withTag (r : ImageReference) (tag : String) :
    (r.withTag tag).text = r.stem ++ tag := by
  unfold text stem
  dsimp only [withTag]
  split <;> rfl

theorem tag_eq_of_text_eq {r : ImageReference} {tag : String}
    (h : r.text = (r.withTag tag).text) : r.tag = tag := by
  rw [show r.text = (r.withTag r.tag).text from rfl, text_withTag, text_withTag] at h
  exact (String.append_right_inj r.stem).1 h

end ImageReference

theorem loginCommand_ne_pushCommand (host reference : String) :
    loginCommand host ≠ pushCommand reference := by
  intro h
  have hlogin := isDocker_loginCommand "login" host
  rw [h, isDocker_pushCommand] at hlogin
  simp at hlogin

theorem isProductionTag_latestTag : isProductionTag latestTag = false := by decide

namespace Image.Building

variable {request : BuildRequest} {cs : List Call} {r : Except ReleaseError BuiltImage}

theorem eachCall_tag (h : Building request cs r) :
    EachCall (fun pre c ↦ c.command.isDocker "tag" = true →
      .call (.done .captured request.command) ∈ pre) (cs.map .call) := by
  have hinfo {pre : List Exchange} {r : Except ReleaseError Outcome} :
      (⟨.captured, infoCommand, r⟩ : Call).command.isDocker "tag" = true →
        .call (.done .captured request.command) ∈ pre := by
    intro htag
    rw [isDocker_infoCommand] at htag
    simp at htag
  have hbuild {pre : List Exchange} {r : Except ReleaseError Outcome} :
      (⟨.captured, request.command, r⟩ : Call).command.isDocker "tag" = true →
        .call (.done .captured request.command) ∈ pre := by
    intro htag
    rw [isDocker_command] at htag
    split at htag <;> simp at htag
  cases h with
  | unreachable _ => exact .call hinfo .nil
  | unbuilt _ | built _ => exact .call hinfo (.call hbuild .nil)
  | untagged _ _ | tagged _ =>
    refine .call hinfo (.call hbuild (.call (fun _ ↦ ?_) .nil))
    exact List.mem_cons_of_mem _ List.mem_cons_self

theorem mem_tag {latest : ImageReference} (h : Building request cs r)
    (hbuilt : .done .captured request.command ∈ cs)
    (halias : request.image.latestAlias = some latest) :
    ∃ c ∈ cs, c.command = tagCommand request.image latest := by
  have hinfo : infoCommand.isDocker "info" = true := isDocker_infoCommand "info"
  have hne := ne_command_of_isDocker hinfo (by decide) (by decide) request
  cases h with
  | unreachable ha =>
    simp only [List.mem_singleton, Call.done, Call.mk.injEq] at hbuilt
    exact absurd hbuilt.2.1.symm hne
  | unbuilt ha =>
    simp only [List.mem_cons, List.not_mem_nil, or_false, Call.done, Call.mk.injEq] at hbuilt
    obtain ⟨-, heq, -⟩ | ⟨-, -, hr⟩ := hbuilt
    · exact absurd heq.symm hne
    · exact absurd hr.symm ha
  | @untagged latest' a halias' ha =>
    rw [halias] at halias'
    cases halias'
    exact ⟨_, List.mem_cons_of_mem _ (List.mem_cons_of_mem _ List.mem_cons_self), rfl⟩
  | @tagged latest' halias' =>
    rw [halias] at halias'
    cases halias'
    exact ⟨_, List.mem_cons_of_mem _ (List.mem_cons_of_mem _ List.mem_cons_self), rfl⟩
  | built hnone =>
    rw [halias] at hnone
    cases hnone

end Image.Building

namespace Publish

theorem Pushing.eq_append {published left refs : List String} {cs : List Call}
    (h : Pushing published left cs (.ok refs)) : refs = published ++ left := by
  generalize hr : (Except.ok refs : Except ReleaseError (List String)) = r at h
  induction h with
  | finished published =>
    cases hr
    exact (List.append_nil _).symm
  | pushed _ ih => rw [ih hr, List.append_assoc, List.singleton_append]
  | failed _ _ _ => cases hr

variable {interactive : Bool} {found : Except ReleaseError Bool} {image : BuiltImage}
  {xs : List Exchange} {r : Except ReleaseError PublishOutcome} {options : PublishOptions}

theorem Publishing.eq_references {refs : List String}
    (h : Publishing interactive found image options xs (.ok (.pushed refs))) :
    refs = image.references.map ImageReference.text := by
  have hpushed {cs : List Call} {s : Except ReleaseError (List String)}
      (hcs : Pushing [] (image.references.map ImageReference.text) cs s)
      (hr : .ok (.pushed refs) = s.map PublishOutcome.pushed) :
      refs = image.references.map ImageReference.text := by
    cases s with
    | error e => cases hr
    | ok published =>
      cases hr
      exact hcs.eq_append
  generalize hr : (Except.ok (.pushed refs) : Except ReleaseError PublishOutcome) = r at h
  cases h with
  | skipped _ | unreadable _ | unattended _ _ | declined _ _ | refused _ _ _ => cases hr
  | unchecked hcs | known _ hcs | loggedIn _ _ hcs => exact hpushed hcs hr

theorem Publishing.not_declined {refs : List String}
    (h : Publishing interactive found image options xs (.ok (.pushed refs))) :
    ¬(options.noPush = true ∨
      answerTo? (loginQuestion image.primary.registryHost) xs = some false) := by
  generalize hr : (Except.ok (.pushed refs) : Except ReleaseError PublishOutcome) = r at h
  cases h with
  | skipped _ | unreadable _ | unattended _ _ | declined _ _ | refused _ _ _ => cases hr
  | unchecked _ | known _ _ => simp
  | loggedIn _ _ _ => simp

theorem Publishing.eachCall_second (h : Publishing interactive found image options xs r) :
    EachCall (fun pre c ↦ ∀ reference, c.command = pushCommand reference →
      reference ≠ image.primary.text →
      (∃ latest, image.latest = some latest ∧ reference = latest.text) ∧
        .call (.done .captured (pushCommand image.primary.text)) ∈ pre) xs := by
  have hpushes {cs : List Call} {s : Except ReleaseError (List String)}
      (hcs : Pushing [] (image.references.map ImageReference.text) cs s) :
      EachCall (fun pre c ↦ ∀ reference, c.command = pushCommand reference →
        reference ≠ image.primary.text →
        (∃ latest, image.latest = some latest ∧ reference = latest.text) ∧
          .call (.done .captured (pushCommand image.primary.text)) ∈ pre) (cs.map .call) := by
    refine hcs.eachCall.mono fun pre c h reference hc hne ↦ ?_
    obtain ⟨pushed, s, rest, hleft, hs, rfl⟩ := h
    -- The image's own reference is the first of the list, so something was pushed before this one.
    have hreference : s = reference := by
      have harguments := congrArg Invocation.arguments (hs.symm.trans hc)
      simpa [pushCommand] using harguments
    subst hreference
    cases pushed with
    | nil =>
      obtain ⟨hprimary, -⟩ := List.cons.inj hleft
      exact absurd hprimary.symm hne
    | cons first pushed =>
      obtain ⟨hfirst, hrest⟩ := List.cons.inj hleft
      refine ⟨?_, ?_⟩
      · have hmem : s ∈ image.latest.toList.map ImageReference.text := by
          rw [hrest]
          exact List.mem_append_right pushed List.mem_cons_self
        obtain ⟨latest, hlatest, htext⟩ := List.mem_map.1 hmem
        exact ⟨latest, Option.mem_toList.1 hlatest, htext.symm⟩
      · rw [hfirst]
        exact List.mem_cons_self
  cases h with
  | skipped _ | unreadable _ | unattended _ _ => exact .nil
  | unchecked hcs | known _ hcs => exact hpushes hcs
  | declined _ _ => exact .asked .nil
  | refused _ _ _ =>
    refine .asked (.call ?_ .nil)
    intro reference hc
    exact absurd hc (loginCommand_ne_pushCommand _ reference)
  | loggedIn _ _ hcs =>
    refine .asked (.call ?_ ((hpushes hcs).mono fun pre c h reference hc hne ↦ ?_))
    · intro reference hc
      exact absurd hc (loginCommand_ne_pushCommand _ reference)
    · obtain ⟨hlatest, hmem⟩ := h reference hc hne
      exact ⟨hlatest, List.mem_cons_of_mem _ (List.mem_cons_of_mem _ hmem)⟩

end Publish

namespace Pipeline

open Image Publish

variable {σ : Type} {env : Surroundings σ} {credentials : Option Path} {plan : Plan} {w : World σ}
  {xs : List Exchange} {r : Except ReleaseError RunOutcome} {i : ImagePlan} {v : Version}

theorem Course.issued_prefix_of_image (h : Course env credentials plan w xs r)
    (hi : plan.image = some i) (hv : Version.parse plan.version = .ok v) (verb : String)
    (hlogin : verb ≠ "login") :
    issued verb xs <+: ofVerb verb (buildCommands (i.request v)) ++
      if verb = "push" then
        (i.reference v :: (i.reference v).latestAlias.toList).map fun s ↦ pushCommand s.text
      else [] := by
  refine (h.issued_prefix verb).trans ?_
  rw [Plan.commands_of_image hv hi, ofVerb_append, ofVerb_packagingSteps, List.nil_append,
    ImagePlan.ofVerb_commands]
  split
  · exact List.nil_prefix
  refine (List.prefix_append_right_inj _).2 ?_
  rw [ofVerb_publishCommands]
  split
  · exact List.nil_prefix
  · rw [if_neg fun h ↦ hlogin h.1]
    exact List.prefix_refl _

theorem Course.exists_building (h : Course env credentials plan w xs r)
    (hi : plan.image = some i) (hv : Version.parse plan.version = .ok v) {c : Call}
    (hc : .call c ∈ xs) (hbuild : c.command = (i.request v).command) :
    ∃ ds s, Building (i.request v) ds s ∧ c ∈ ds ∧ ∀ d ∈ ds, .call d ∈ xs := by
  have hpackaging {v' : Version} {cs : List Call} {all : Bool}
      (hcs : InTurn (plan.packagingSteps v') cs all) : c ∉ cs := by
    intro hmem
    refine Plan.program_of_mem_packagingSteps (hcs.order_mem hmem) ?_
    rw [Call.order, hbuild]
    rfl
  have hconsent {assumeYes : Bool} {consent : List Exchange} (hagreed : Agreed assumeYes consent) :
      .call c ∉ consent := by
    rw [← mem_calls, hagreed.calls_eq]
    exact List.not_mem_nil
  cases h with
  | refused _ _ => cases hc
  | unpackaged _ _ hcs => exact absurd (by simpa using hc) (hpackaging hcs)
  | imageless _ _ hcs _ => exact absurd (by simpa using hc) (hpackaging hcs)
  | cancelled _ _ hcs _ _ => exact absurd (by simpa using hc) (hpackaging hcs)
  | @unbuilt v' cs ds j consent e w₁ _ hv' hcs hi' hagreed hds =>
    obtain rfl := Option.some.inj (hi.symm.trans hi')
    obtain rfl := Except.ok.inj (hv.symm.trans hv')
    refine ⟨ds, _, hds, ?_, ?_⟩
    · simpa [hpackaging hcs, hconsent hagreed] using hc
    · intro d hd
      simp [hd]
  | @published v' cs ds package j consent ys image w₁ s _ hv' hcs hi' hagreed hds hys =>
    obtain rfl := Option.some.inj (hi.symm.trans hi')
    obtain rfl := Except.ok.inj (hv.symm.trans hv')
    have hpublishing : .call c ∉ ys := by
      intro hmem
      obtain hlogin | ⟨reference, hpush⟩ := hys.command_eq hmem
      · have hverb : c.command.isDocker "login" = true := hlogin ▸ isDocker_loginCommand "login" _
        exact ne_command_of_isDocker hverb (by decide) (by decide) _ hbuild
      · have hverb : c.command.isDocker "push" = true := hpush ▸ isDocker_pushCommand "push" _
        exact ne_command_of_isDocker hverb (by decide) (by decide) _ hbuild
    refine ⟨ds, _, hds, ?_, ?_⟩
    · simpa [hpackaging hcs, hconsent hagreed, hpublishing] using hc
    · intro d hd
      simp [hd]

theorem Course.eachCall_tag (h : Course env credentials plan w xs r)
    (hi : plan.image = some i) (hv : Version.parse plan.version = .ok v) :
    EachCall (fun pre c ↦ c.command.isDocker "tag" = true →
      .call (.done .captured (i.request v).command) ∈ pre) xs := by
  refine h.eachCall ?_ ?_ ?_
  · intro pre c hc
    rw [Invocation.isDocker_of_program hc]
    simp
  · intro before j v' ds s hi' hv' hds
    obtain rfl := Option.some.inj (hi.symm.trans hi')
    obtain rfl := Except.ok.inj (hv.symm.trans hv')
    exact hds.eachCall_tag.mono fun pre c h htag ↦ List.mem_append_right before (h htag)
  · intro before j v' package image w₁ ds ys s _ _ _ _ hys
    refine .of_mem fun c hc pre htag ↦ ?_
    obtain hlogin | ⟨reference, hpush⟩ := hys.command_eq (mem_calls.1 hc)
    · rw [hlogin, isDocker_loginCommand] at htag
      simp at htag
    · rw [hpush, isDocker_pushCommand] at htag
      simp at htag

theorem Course.eachCall_second (h : Course env credentials plan w xs r)
    (hi : plan.image = some i) (hv : Version.parse plan.version = .ok v) :
    EachCall (fun pre c ↦ ∀ reference, c.command = pushCommand reference →
      reference ≠ (i.reference v).text →
      isProductionTag (i.reference v).tag = true ∧
        .call (.done .captured (pushCommand (i.reference v).text)) ∈ pre) xs := by
  refine h.eachCall ?_ ?_ ?_
  · intro pre c hc reference hpush
    rw [hpush] at hc
    exact absurd rfl hc
  · intro before j v' ds s _ _ hds
    refine .of_mem fun c hc pre reference hpush ↦ ?_
    have hverb : c.command.isDocker "push" = true := hpush ▸ isDocker_pushCommand "push" _
    rw [calls_map_call] at hc
    rw [hds.isDocker_eq_false hc (by decide)] at hverb
    cases hverb
  · intro before j v' package image w₁ ds ys s hi' hv' _ hds hys
    obtain rfl := Option.some.inj (hi.symm.trans hi')
    obtain rfl := Except.ok.inj (hv.symm.trans hv')
    have himage := hds.image_eq
    subst himage
    refine hys.eachCall_second.mono fun pre c h reference hpush hne ↦ ?_
    obtain ⟨⟨latest, halias, -⟩, hmem⟩ := h reference hpush hne
    exact ⟨(ImageReference.latestAlias_eq_some.1 halias).1, List.mem_append_right _ hmem⟩

/-- A run that ends with an image built has gone through the build and come to its outcome by
publishing what was built. -/
theorem Course.exists_publishing {o : RunOutcome} {image : BuiltImage} {outcome : PublishOutcome}
    (h : Course env credentials plan w xs (.ok o)) (hi : plan.image = some i)
    (hv : Version.parse plan.version = .ok v) (ho : o.image = .built image outcome) :
    image = ⟨i.reference v, (i.reference v).latestAlias⟩ ∧ ∃ found ys,
      Publishing env.interactive found image i.publish ys (.ok outcome) ∧
      plan.commands (answerTo? · xs) = plan.packagingSteps v ++ (buildCommands (i.request v) ++
        Publish.commands image i.publish
          (answerTo? (loginQuestion image.primary.registryHost) ys)) := by
  generalize hr : (Except.ok o : Except ReleaseError RunOutcome) = r at h
  cases h with
  | refused _ _ | unpackaged _ _ _ | unbuilt _ _ _ _ _ _ => cases hr
  | imageless _ _ _ _ | cancelled _ _ _ _ _ =>
    cases hr
    cases ho
  | @published v' cs ds package j consent ys image' w₁ s _ hv' _ hi' hagreed hds hys =>
    obtain rfl := Option.some.inj (hi.symm.trans hi')
    obtain rfl := Except.ok.inj (hv.symm.trans hv')
    cases s with
    | error e => cases hr
    | ok outcome' =>
      cases hr
      cases ho
      have himage := hds.image_eq
      subst himage
      refine ⟨rfl, _, ys, hys, ?_⟩
      rw [Plan.commands_of_image hv hi,
        commands_agreed v cs ds hagreed (answerTo?_buildQuestion_of_publishing hys)]
      rfl

section Built

variable {o : RunOutcome} {image : BuiltImage} {outcome : PublishOutcome}
  (h : Course env credentials plan w xs (.ok o)) (hi : plan.image = some i)
  (hv : Version.parse plan.version = .ok v) (ho : o.image = .built image outcome)
include h hi hv ho

theorem Course.built_eq :
    image = ⟨i.reference v, (i.reference v).latestAlias⟩ ∧
      ∀ refs, outcome = .pushed refs → refs = image.references.map ImageReference.text := by
  obtain ⟨himage, found, ys, hys, -⟩ := h.exists_publishing hi hv ho
  refine ⟨himage, ?_⟩
  rintro refs rfl
  exact hys.eq_references

theorem Course.done_of_mem_buildCommands {step : Mode × Invocation}
    (hstep : step ∈ buildCommands (i.request v)) : .call (.done step.1 step.2) ∈ xs := by
  obtain ⟨-, found, ys, -, hcommands⟩ := h.exists_publishing hi hv ho
  have hturn := h.inTurn
  rw [hcommands] at hturn
  exact mem_calls.1
    (hturn.done_mem (List.mem_append_right _ (List.mem_append_left _ hstep)))

end Built

theorem Course.pushes_of_pushed {o : RunOutcome} {image : BuiltImage} {refs : List String}
    (h : Course env credentials plan w xs (.ok o)) (hi : plan.image = some i)
    (hv : Version.parse plan.version = .ok v) (ho : o.image = .built image (.pushed refs)) :
    issued "push" xs = refs.map pushCommand ∧
      ∀ reference ∈ refs, .call (.done .captured (pushCommand reference)) ∈ xs := by
  obtain ⟨-, found, ys, hys, hcommands⟩ := h.exists_publishing hi hv ho
  have hturn := h.inTurn
  rw [hcommands] at hturn
  have hrefs := hys.eq_references
  subst hrefs
  constructor
  · have hverb : "push" ≠ if (i.request v).isMultiPlatform then "buildx" else "build" := by
      split <;> decide
    have hbuild : ofVerb "push" (buildCommands (i.request v)) = [] := by
      rw [ofVerb_buildCommands, if_neg (by decide), if_neg hverb, if_neg (by decide)]
      rfl
    rw [issued, hturn.order_eq, ofVerb_append, ofVerb_packagingSteps, ofVerb_append, hbuild,
      ofVerb_publishCommands, if_neg hys.not_declined, if_neg (by simp), if_pos rfl, List.map_map]
    rfl
  · intro reference href
    obtain ⟨s, hs, rfl⟩ := List.mem_map.1 href
    have hpush : (.captured, pushCommand s.text) ∈ Publish.commands image i.publish
        (answerTo? (loginQuestion image.primary.registryHost) ys) := by
      rw [commands_eq_references, if_neg hys.not_declined]
      exact List.mem_append_right _ (List.mem_map_of_mem hs)
    exact mem_calls.1
      (hturn.done_mem (List.mem_append_right _ (List.mem_append_right _ hpush)))

theorem Course.issued_tag_prefix (h : Course env credentials plan w xs r)
    (hi : plan.image = some i) (hv : Version.parse plan.version = .ok v) :
    issued "tag" xs <+:
      if isProductionTag (i.reference v).tag = true then
        [tagCommand (i.reference v) ((i.reference v).withTag latestTag)]
      else [] := by
  have hprefix := h.issued_prefix_of_image hi hv "tag" (by decide)
  have hverb : "tag" ≠ if (i.request v).isMultiPlatform then "buildx" else "build" := by
    split <;> decide
  rw [ofVerb_buildCommands, if_neg (by decide), if_neg hverb, if_pos rfl, if_neg (by decide),
    List.nil_append, List.nil_append, List.append_nil] at hprefix
  rwa [← ImageReference.map_latestAlias (tagCommand (i.reference v))]

theorem Course.issued_push_prefix (h : Course env credentials plan w xs r)
    (hi : plan.image = some i) (hv : Version.parse plan.version = .ok v) :
    issued "push" xs <+:
      pushCommand (i.reference v).text ::
        if isProductionTag (i.reference v).tag = true then
          [pushCommand ((i.reference v).withTag latestTag).text]
        else [] := by
  have hprefix := h.issued_prefix_of_image hi hv "push" (by decide)
  have hverb : "push" ≠ if (i.request v).isMultiPlatform then "buildx" else "build" := by
    split <;> decide
  rwa [ofVerb_buildCommands, if_neg (by decide), if_neg hverb, if_neg (by decide), if_pos rfl,
    List.nil_append, List.nil_append, List.nil_append, List.map_cons,
    ImageReference.map_latestAlias fun s ↦ pushCommand s.text] at hprefix

theorem Course.length_builds_le (h : Course env credentials plan w xs r)
    (hi : plan.image = some i) (hv : Version.parse plan.version = .ok v) :
    (issued "build" xs ++ issued "buildx" xs).length ≤ 1 := by
  have hbuild := h.issued_prefix_of_image hi hv "build" (by decide)
  have hbuildx := h.issued_prefix_of_image hi hv "buildx" (by decide)
  rw [ofVerb_buildCommands] at hbuild hbuildx
  cases hmulti : (i.request v).isMultiPlatform with
  | true =>
    have hnone : issued "build" xs = [] := by simpa [hmulti] using hbuild
    rw [hnone, List.nil_append]
    simpa [hmulti] using hbuildx.length_le
  | false =>
    have hnone : issued "buildx" xs = [] := by simpa [hmulti] using hbuildx
    rw [hnone, List.append_nil]
    simpa [hmulti] using hbuild.length_le

theorem Course.issued_tag_eq (h : Course env credentials plan w xs r)
    (hi : plan.image = some i) (hv : Version.parse plan.version = .ok v)
    (hbuilt : .call (.done .captured (i.request v).command) ∈ xs) :
    issued "tag" xs =
      if isProductionTag (i.reference v).tag = true then
        [tagCommand (i.reference v) ((i.reference v).withTag latestTag)]
      else [] := by
  have hprefix := h.issued_tag_prefix hi hv
  split
  · rename_i hproduction
    rw [if_pos hproduction] at hprefix
    obtain ⟨ds, s, hds, hmem, hsub⟩ := h.exists_building hi hv hbuilt rfl
    obtain ⟨c, hc, htag⟩ := hds.mem_tag hmem (ImageReference.latestAlias_of_production hproduction)
    have hverb : c.command.isDocker "tag" = true := htag ▸ isDocker_tagCommand "tag" _ _
    have hissued := List.ne_nil_of_mem (mem_issued.2 ⟨c, hsub c hc, rfl, hverb⟩)
    exact hprefix.eq_of_length_le (List.length_pos_iff.2 hissued)
  · rename_i hproduction
    rw [if_neg hproduction] at hprefix
    exact List.prefix_nil.1 hprefix

/-- Whatever the tools, the files and the operator do, a run gives no reference but its own and
that of `latest` to be tagged or pushed. It tags once at most, what it has built, and exactly if
its tag is a production tag; it pushes `latest` for a production tag only and after the push under
its own tag. A run that ends with an image has built it and given it all its tags, and when
everything is pushed, a push of each of these references was issued and done. -/
theorem latest_promotion (env : Surroundings σ) (credentials : Option Path) (w : World σ)
    (hi : plan.image = some i) (hv : Version.parse plan.version = .ok v) :
    let xs := exchanged (run env credentials plan) w
    let tag := i.tag.getD v.text
    let primary := ImageReference.new i.registry i.name tag
    let latest := primary.withTag "latest"
    let built := Exchange.call (.done .captured (i.request v).command)
    let tags := if isProductionTag tag = true then [tagCommand primary latest] else []
    let pushes := pushCommand primary.text ::
      if isProductionTag tag = true then [pushCommand latest.text] else []
    i.Wording v ∧
      (issued "tag" xs <+: tags) ∧
      (issued "build" xs ++ issued "buildx" xs).length ≤ 1 ∧
      EachCall (fun pre c ↦ c.command.isDocker "tag" = true → built ∈ pre) xs ∧
      (built ∈ xs → issued "tag" xs = tags) ∧
      (issued "push" xs <+: pushes) ∧
      EachCall (fun pre c ↦ c.command = pushCommand latest.text → tag ≠ "latest" →
        isProductionTag tag = true ∧
          .call (.done .captured (pushCommand primary.text)) ∈ pre) xs ∧
      (∀ o image outcome, result (run env credentials plan) w = .ok o →
        o.image = .built image outcome →
        built ∈ xs ∧ (∀ c ∈ tags, .call (.done .captured c) ∈ xs) ∧
          image = ⟨primary, if isProductionTag tag = true then some latest else none⟩ ∧
          ∀ refs, outcome = .pushed refs →
            (refs = primary.text :: if isProductionTag tag = true then [latest.text] else []) ∧
              issued "push" xs = pushes ∧ ∀ c ∈ pushes, .call (.done .captured c) ∈ xs) ∧
      (i.tag = none → (isProductionTag tag = true ↔ v.prerelease = none) ∧
        (built ∈ xs → (issued "tag" xs ≠ [] ↔ v.prerelease = none))) := by
  intro xs tag primary latest built tags pushes
  have hcourse := course_run env credentials plan w
  have hdefault : i.tag = none → (isProductionTag tag = true ↔ v.prerelease = none) := by
    intro hnone
    have htag : tag = v.text := by
      dsimp only [tag]
      rw [hnone]
      rfl
    rw [htag]
    exact Version.isProductionTag_text (Version.parse_eq_ok hv).1
  refine ⟨i.wording v, hcourse.issued_tag_prefix hi hv, hcourse.length_builds_le hi hv,
    hcourse.eachCall_tag hi hv, hcourse.issued_tag_eq hi hv, hcourse.issued_push_prefix hi hv,
    ?_, ?_, ?_⟩
  · refine (hcourse.eachCall_second hi hv).mono fun pre c h hc hne ↦ ?_
    refine h latest.text hc fun heq ↦ hne ?_
    exact ImageReference.tag_eq_of_text_eq heq.symm
  · intro o image outcome ho himage
    rw [ho] at hcourse
    have hdone {c : Invocation} (hc : (.captured, c) ∈ buildCommands (i.request v)) :
        .call (.done .captured c) ∈ xs := hcourse.done_of_mem_buildCommands hi hv himage hc
    have htags : ∀ c ∈ tags, .call (.done .captured c) ∈ xs := by
      intro c hc
      have hmem : c ∈ primary.latestAlias.toList.map (tagCommand primary) :=
        ImageReference.map_latestAlias (tagCommand primary) primary ▸ hc
      obtain ⟨second, hsecond, rfl⟩ := List.mem_map.1 hmem
      exact hdone (List.mem_cons_of_mem _ (List.mem_cons_of_mem _
        (List.mem_map.2 ⟨second, hsecond, rfl⟩)))
    obtain ⟨rfl, hrefs⟩ := hcourse.built_eq hi hv himage
    refine ⟨hdone (List.mem_cons_of_mem _ List.mem_cons_self), htags, rfl, ?_⟩
    rintro refs rfl
    have hpushed : refs = primary.text ::
        if isProductionTag tag = true then [latest.text] else [] :=
      (hrefs refs rfl).trans (congrArg (primary.text :: ·)
        (ImageReference.map_latestAlias ImageReference.text primary))
    have hpushes : refs.map pushCommand = pushes := by
      rw [hpushed, List.map_cons, apply_ite (List.map pushCommand)]
      rfl
    obtain ⟨hissued, heach⟩ := hcourse.pushes_of_pushed hi hv himage
    refine ⟨hpushed, hissued.trans hpushes, ?_⟩
    rw [← hpushes]
    exact List.forall_mem_map.2 heach
  · intro hnone
    refine ⟨hdefault hnone, fun hbuilt ↦ ?_⟩
    have hne : tags ≠ [] ↔ isProductionTag tag = true := by simp [tags]
    rw [hcourse.issued_tag_eq hi hv hbuilt]
    exact hne.trans (hdefault hnone)

/-- A release of version 1.2.3, rehearsed with tools that all succeed, is built, tagged and pushed
under both of its tags. -/
theorem latest_promotion_rehearsed :
    let plan : Plan := ⟨"1.2.3", none, some ⟨"registry.example.com", "agent", none, ⟨"/Dockerfile"⟩,
      ⟨"/"⟩, "linux/amd64", "Release", false, ⟨false, true⟩, true⟩⟩
    let xs := exchanged (run (Rehearsal.surroundings [] false) none plan) ⟨{}, {}, []⟩
    (issued "tag" xs).map Invocation.words = [["docker", "tag",
        "registry.example.com/agent:1.2.3", "registry.example.com/agent:latest"]] ∧
      (issued "push" xs).map Invocation.words =
        [["docker", "push", "registry.example.com/agent:1.2.3"],
          ["docker", "push", "registry.example.com/agent:latest"]] := by
  intro plan xs
  have hv : Version.parse plan.version = .ok ⟨"1", "2", "3", none⟩ := by
    change Version.parse "1.2.3" = _
    rfl
  have h := latest_promotion (Rehearsal.surroundings [] false) none ⟨{}, {}, []⟩
    (show plan.image = some _ from rfl) hv
  have hresult : (result (run (Rehearsal.surroundings [] false) none plan) ⟨{}, {}, []⟩).toOption =
      some ⟨⟨"1", "2", "3", none⟩, none, .built
        ⟨⟨"registry.example.com", "agent", "1.2.3"⟩,
          some ⟨"registry.example.com", "agent", "latest"⟩⟩
        (.pushed ["registry.example.com/agent:1.2.3", "registry.example.com/agent:latest"])⟩ := by
    decide +kernel
  obtain ⟨-, -, -, -, htag, -, -, hdone, -⟩ := h
  obtain ⟨hbuilt, -, -, hpush⟩ := hdone _ _ _ (eq_ok_of_toOption hresult) rfl
  rw [htag hbuilt, (hpush _ rfl).2.1]
  exact ⟨by decide, by decide⟩

end Pipeline

end ReleaseTrain
