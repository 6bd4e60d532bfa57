import ReleaseTrain.Proofs.Promotion
import ReleaseTrain.Proofs.Registry

namespace ReleaseTrain

open Session

/-- The effects of a run that goes through. -/
def ImageReference.effects (r : ImageReference) : List Effect :=
  .build r.text :: (r.latestAlias.toList.map fun latest ↦ .tag r.text latest.text) ++
    (r :: r.latestAlias.toList).map fun s ↦ .push s.text

theorem ImageReference.effects_of_production {r : ImageReference}
    (h : isProductionTag r.tag = true) :
    r.effects = [.build r.text, .tag r.text (r.withTag latestTag).text, .push r.text,
      .push (r.withTag latestTag).text] := by
  rw [effects, latestAlias_of_production h]
  rfl

theorem ImageReference.effects_of_not_production {r : ImageReference}
    (h : isProductionTag r.tag = false) : r.effects = [.build r.text, .push r.text] := by
  rw [effects, latestAlias_of_not_production h]
  rfl

theorem ImageReference.text_ne_latest_of_production (r : ImageReference)
    (h : isProductionTag r.tag = true) : r.text ≠ (r.withTag latestTag).text := by
  intro heq
  rw [tag_eq_of_text_eq heq, isProductionTag_latestTag] at h
  cases h

theorem ImageReference.effects_nodup (r : ImageReference) : r.effects.Nodup := by
  cases h : isProductionTag r.tag with
  | true =>
    rw [effects_of_production h]
    simp [r.text_ne_latest_of_production h]
  | false =>
    rw [effects_of_not_production h]
    simp

theorem eq_of_append_cons_prefix {α : Type} {x : α} {as bs front : List α}
    (h : as ++ x :: bs <+: front ++ [x]) (hx : x ∉ front) : as = front := by
  obtain ⟨rest, hrest⟩ := h
  rw [List.append_assoc, List.cons_append] at hrest
  obtain ⟨zs, rfl, hzs⟩ | ⟨zs, rfl, hzs⟩ := List.append_eq_append_iff.1 hrest
  · cases zs with
    | nil => exact (List.append_nil as).symm
    | cons z zs =>
      obtain ⟨rfl, -⟩ := List.cons.inj hzs
      exact absurd (List.mem_append_right as List.mem_cons_self) hx
  · cases zs with
    | nil => exact List.append_nil front
    | cons z zs => simp at hzs

theorem plannedEffects_map {α : Type} {command : α → Invocation} {effect : α → Effect}
    (h : ∀ a, (command a).effect? = some (effect a)) (mode : Mode) (as : List α) :
    plannedEffects (as.map fun a ↦ (mode, command a)) = as.map effect := by
  induction as with
  | nil => rfl
  | cons a as ih =>
    rw [List.map_cons, plannedEffects_cons, ih, h a]
    rfl

theorem plannedEffects_buildCommands (request : BuildRequest) :
    plannedEffects (Image.buildCommands request) = .build request.image.text ::
      request.image.latestAlias.toList.map fun latest ↦ .tag request.image.text latest.text := by
  unfold Image.buildCommands
  rw [plannedEffects_cons, plannedEffects_cons,
    plannedEffects_map (effect?_tagCommand request.image), effect?_infoCommand, effect?_command]
  rfl

theorem plannedEffects_publishCommands {image : BuiltImage} {options : PublishOptions}
    {agreed : Option Bool} (h : ¬(options.noPush = true ∨ agreed = some false)) :
    plannedEffects (Publish.commands image options agreed) =
      image.references.map fun s ↦ .push s.text := by
  have hpushes := plannedEffects_map (fun s : ImageReference ↦ effect?_pushCommand s.text)
    .captured image.references
  rw [Publish.commands_eq_references, if_neg h, plannedEffects_append, hpushes]
  split
  · rw [plannedEffects_cons, effect?_loginCommand]
    rfl
  · rfl

namespace Pipeline

open Image Publish

variable {σ : Type} {env : Surroundings σ} {credentials : Option Path} {plan : Plan} {w : World σ}
  {xs : List Exchange} {r : Except ReleaseError RunOutcome} {i : ImagePlan} {v : Version}

theorem plannedEffects_commands (hi : plan.image = some i)
    (hv : Version.parse plan.version = .ok v) (answer : String → Option Bool) :
    plannedEffects (plan.commands answer) = plannedEffects (i.commands v answer) := by
  have hpackaging : plannedEffects (plan.packagingSteps v) = [] :=
    plannedEffects_eq_nil fun _ hstep ↦ Plan.program_of_mem_packagingSteps hstep
  rw [Plan.commands_of_image hv hi, plannedEffects_append, hpackaging, List.nil_append]

theorem plannedEffects_begin (i : ImagePlan) (v : Version) (answer : String → Option Bool) :
    plannedEffects (i.commands v answer) <+: (i.reference v).effects := by
  rw [ImagePlan.commands_eq]
  split
  · exact List.nil_prefix
  rw [plannedEffects_append, plannedEffects_buildCommands]
  refine (List.prefix_append_right_inj _).2 ?_
  by_cases hnone : i.publish.noPush = true ∨
      answer (loginQuestion (i.reference v).registryHost) = some false
  · rw [Publish.commands, if_pos hnone]
    exact List.nil_prefix
  · rw [plannedEffects_publishCommands hnone]
    exact List.prefix_refl _

theorem Course.effects_prefix (h : Course env credentials plan w xs r)
    (hi : plan.image = some i) (hv : Version.parse plan.version = .ok v) :
    effects (calls xs) <+: (i.reference v).effects := by
  have hprefix := h.inTurn.effects_prefix
  rw [plannedEffects_commands hi hv] at hprefix
  exact hprefix.trans (plannedEffects_begin i v _)

theorem Course.effects_eq {o : RunOutcome} {image : BuiltImage} {refs : List String}
    (h : Course env credentials plan w xs (.ok o)) (hi : plan.image = some i)
    (hv : Version.parse plan.version = .ok v) (ho : o.image = .built image (.pushed refs)) :
    effects (calls xs) = (i.reference v).effects := by
  obtain ⟨rfl, found, ys, hys, hcommands⟩ := h.exists_publishing hi hv ho
  have hpackaging : plannedEffects (plan.packagingSteps v) = [] :=
    plannedEffects_eq_nil fun _ hstep ↦ Plan.program_of_mem_packagingSteps hstep
  rw [h.inTurn.effects_eq, hcommands, plannedEffects_append, hpackaging, List.nil_append,
    plannedEffects_append, plannedEffects_buildCommands,
    plannedEffects_publishCommands hys.not_declined]
  rfl

theorem Course.latest_untouched (h : Course env credentials plan w xs r)
    (hi : plan.image = some i) (hv : Version.parse plan.version = .ok v)
    (hproduction : isProductionTag (i.reference v).tag = false)
    (hlatest : (i.reference v).tag ≠ latestTag) {cs : List Call} (hcs : cs <+: calls xs)
    (d : Docker) :
    (d.after cs).bound ((i.reference v).withTag latestTag).text =
        d.bound ((i.reference v).withTag latestTag).text ∧
      (d.after cs).registry ((i.reference v).withTag latestTag).text =
        d.registry ((i.reference v).withTag latestTag).text := by
  have hne : (i.reference v).text ≠ ((i.reference v).withTag latestTag).text :=
    fun heq ↦ hlatest (ImageReference.tag_eq_of_text_eq heq)
  have hprefix := (hcs.filterMap Call.effect?).trans (h.effects_prefix hi hv)
  rw [ImageReference.effects_of_not_production hproduction] at hprefix
  rw [Docker.after_eq]
  constructor
  · refine Docker.bound_foldl_of_ne d fun e he ↦ ?_
    have hmem := hprefix.subset he
    simp only [List.mem_cons, List.not_mem_nil, or_false] at hmem
    obtain rfl | rfl := hmem
    · simp [hne]
    · simp
  · refine Docker.registry_foldl_of_ne d fun he ↦ ?_
    have hmem := hprefix.subset he
    simp [hne.symm] at hmem

theorem Course.latest_changed (h : Course env credentials plan w xs r)
    (hi : plan.image = some i) (hv : Version.parse plan.version = .ok v)
    (hproduction : isProductionTag (i.reference v).tag = true) {pre post : List Call} {c : Call}
    (hcalls : calls xs = pre ++ c :: post) {d : Docker}
    (hchange : ((d.after pre).step c).registry ((i.reference v).withTag latestTag).text ≠
      (d.after pre).registry ((i.reference v).withTag latestTag).text) :
    ∃ image, ((d.after pre).step c).registry ((i.reference v).withTag latestTag).text =
        some image ∧
      (d.after pre).registry (i.reference v).text = some image ∧
      ∃ c' ∈ pre, c'.effect? = some (.push (i.reference v).text) := by
  have hc := Docker.effect?_of_registry_ne hchange
  have hne := (i.reference v).text_ne_latest_of_production hproduction
  have hprefix := h.effects_prefix hi hv
  rw [hcalls, effects_append, effects_cons, hc,
    ImageReference.effects_of_production hproduction] at hprefix
  -- Nothing comes before a push of `latest` but the other three effects, so all of them took place.
  have hpre : effects pre = [.build (i.reference v).text,
      .tag (i.reference v).text ((i.reference v).withTag latestTag).text,
      .push (i.reference v).text] := by
    refine eq_of_append_cons_prefix hprefix ?_
    simp [hne.symm]
  obtain ⟨hbound, hregistry⟩ := d.bound_promoted hne
  rw [← hpre, ← Docker.after_eq] at hbound hregistry
  refine ⟨d.next, ?_, hregistry, ?_⟩
  · rw [Docker.step_eq_of_effect? hc]
    exact Docker.registry_apply_push hbound
  · have hmem : .push (i.reference v).text ∈ effects pre := by simp [hpre]
    exact List.mem_filterMap.1 hmem

theorem latest_pushed {cs : List Call} {r : ImageReference}
    (heffects : effects cs = r.effects) (hproduction : isProductionTag r.tag = true) (d : Docker) :
    d.Built cs r.text d.next ∧
      (d.after cs).registry (r.withTag latestTag).text = some d.next ∧
      (d.after cs).registry r.text = some d.next := by
  have hne := r.text_ne_latest_of_production hproduction
  rw [ImageReference.effects_of_production hproduction] at heffects
  obtain ⟨hbound, hregistry⟩ := d.bound_promoted hne
  have hafter : d.after cs = ([.build r.text, .tag r.text (r.withTag latestTag).text,
      .push r.text].foldl Docker.apply d).apply (.push (r.withTag latestTag).text) := by
    rw [Docker.after_eq, heffects]
    rfl
  rw [hafter]
  refine ⟨Docker.built_of_effects heffects, Docker.registry_apply_push hbound, ?_⟩
  rw [Docker.registry_apply_of_ne (by simp [hne.symm]), hregistry]

theorem Course.effects_eq_nil (h : Course env credentials plan w xs r)
    (hnone : ∀ i v, plan.image = some i → Version.parse plan.version ≠ .ok v) :
    effects (calls xs) = [] := by
  have hplanned : plannedEffects (plan.commands (answerTo? · xs)) = [] := by
    cases hv : Version.parse plan.version with
    | error e =>
      rw [Plan.commands, hv]
      rfl
    | ok v =>
      cases hi : plan.image with
      | some i => exact absurd hv (hnone i v hi)
      | none =>
        rw [Plan.commands_of_imageless hv hi]
        exact plannedEffects_eq_nil fun _ hstep ↦ Plan.program_of_mem_packagingSteps hstep
  have hprefix := h.inTurn.effects_prefix
  rw [hplanned] at hprefix
  exact List.prefix_nil.1 hprefix

/-- A run under another tag than `latest` leaves the registry's `latest` alone or makes it the image
that it has built and pushed under its own tag, a production tag. -/
theorem Course.registry_latest (h : Course env credentials plan w xs r)
    (hi : plan.image = some i) (hv : Version.parse plan.version = .ok v)
    (hlatest : (i.reference v).tag ≠ latestTag) (d : Docker) :
    (d.after (calls xs)).registry ((i.reference v).withTag latestTag).text =
        d.registry ((i.reference v).withTag latestTag).text ∨
      isProductionTag (i.reference v).tag = true ∧
        d.Built (calls xs) (i.reference v).text d.next ∧
        (d.after (calls xs)).registry ((i.reference v).withTag latestTag).text = some d.next ∧
        (d.after (calls xs)).registry (i.reference v).text = some d.next := by
  by_cases hmem : .push ((i.reference v).withTag latestTag).text ∈ effects (calls xs)
  · cases hproduction : isProductionTag (i.reference v).tag with
    | false =>
      exact .inl (h.latest_untouched hi hv hproduction hlatest (List.prefix_refl _) d).2
    | true =>
      -- The push of `latest` is the last effect that there can be, so none is missing.
      have hne := (i.reference v).text_ne_latest_of_production hproduction
      have hfull : (i.reference v).effects = [.build (i.reference v).text,
          .tag (i.reference v).text ((i.reference v).withTag latestTag).text,
          .push (i.reference v).text] ++ [.push ((i.reference v).withTag latestTag).text] :=
        ImageReference.effects_of_production hproduction
      have heffects : effects (calls xs) = (i.reference v).effects := by
        have hprefix := h.effects_prefix hi hv
        rw [hfull] at hprefix ⊢
        refine (List.prefix_concat_iff.1 hprefix).resolve_right fun hearlier ↦ ?_
        have hearly := hearlier.subset hmem
        simp [hne.symm] at hearly
      exact .inr ⟨rfl, latest_pushed heffects hproduction d⟩
  · rw [Docker.after_eq]
    exact .inl (Docker.registry_foldl_of_ne d hmem)

theorem Course.latest_unpushed (h : Course env credentials plan w xs r)
    (hi : plan.image = some i) (hv : Version.parse plan.version = .ok v) {c : Call}
    (hc : c ∈ calls xs) {reference : String} (hpush : c.command.effect? = some (.push reference))
    (hfailed : c.succeeded = false) : .push reference ∉ effects (calls xs) := by
  obtain ⟨ds, hds, hsucceeded⟩ := h.inTurn.exists_concat hc hfailed
  have hplanned : plannedEffects ((calls xs).map Call.order) <+: (i.reference v).effects := by
    have hprefix := h.inTurn.order_prefix.filterMap fun step ↦ step.2.effect?
    change plannedEffects _ <+: plannedEffects _ at hprefix
    rw [plannedEffects_commands hi hv] at hprefix
    exact hprefix.trans (plannedEffects_begin i v _)
  -- The push that failed is planned as well, and nothing is planned twice.
  have hnodup := hplanned.sublist.nodup (i.reference v).effects_nodup
  have hlast : c.effect? = none := by
    rw [Call.effect?, if_neg (Bool.eq_false_iff.1 hfailed)]
  rw [hds, List.map_append, plannedEffects_append, ← hsucceeded, List.map_cons,
    plannedEffects_cons] at hnodup
  change (effects ds ++ (c.command.effect?.toList ++ [])).Nodup at hnodup
  rw [hpush] at hnodup
  rw [hds, effects_append, effects_cons, hlast, effects_nil]
  intro hmem
  rw [Option.toList_none, List.nil_append, List.append_nil] at hmem
  exact (List.nodup_append.1 hnodup).2.2 _ hmem _ List.mem_cons_self rfl

end Pipeline

/-- One of several runs for the same repository. Before it anything may have happened to the files
and the tools. -/
structure RepositoryRun (σ : Type) (registry name : String) where
  env : Surroundings σ
  credentials : Option Path
  plan : Plan
  start : World σ
  repository : ∀ i, plan.image = some i → i.registry = registry ∧ i.name = name

variable {σ : Type} {registry name : String}

namespace RepositoryRun

def calls (run : RepositoryRun σ registry name) : List Call :=
  ReleaseTrain.calls (exchanged (Pipeline.run run.env run.credentials run.plan) run.start)

def result (run : RepositoryRun σ registry name) : Except ReleaseError RunOutcome :=
  Session.result (Pipeline.run run.env run.credentials run.plan) run.start

theorem reference_eq (run : RepositoryRun σ registry name) {i : ImagePlan} {v : Version}
    (hi : run.plan.image = some i) :
    i.reference v = .new registry name (i.tag.getD v.text) := by
  obtain ⟨hregistry, hname⟩ := run.repository i hi
  rw [ImagePlan.reference, hregistry, hname]

end RepositoryRun

namespace Docker

def afterRun (d : Docker) (run : RepositoryRun σ registry name) : Docker := d.after run.calls

/-- After several runs, one after the other. -/
def afterRuns (d : Docker) (runs : List (RepositoryRun σ registry name)) : Docker :=
  runs.foldl afterRun d

end Docker

theorem RepositoryRun.registry_latest (run : RepositoryRun σ registry name) (d : Docker)
    (hrun : ∀ i v, run.plan.image = some i → Version.parse run.plan.version = .ok v →
      i.tag.getD v.text ≠ latestTag) :
    (d.afterRun run).registry (ImageReference.new registry name latestTag).text =
        d.registry (ImageReference.new registry name latestTag).text ∨
      ∃ i v, run.plan.image = some i ∧ Version.parse run.plan.version = .ok v ∧
        isProductionTag (i.tag.getD v.text) = true ∧
        d.Built run.calls (i.reference v).text d.next ∧
        (d.afterRun run).registry (ImageReference.new registry name latestTag).text =
          some d.next := by
  have hcourse := Pipeline.course_run run.env run.credentials run.plan run.start
  by_cases hplanned : ∃ i v, run.plan.image = some i ∧ Version.parse run.plan.version = .ok v
  · obtain ⟨i, v, hi, hv⟩ := hplanned
    have hlatest : (ImageReference.new registry name latestTag).text =
        ((i.reference v).withTag latestTag).text :=
      congrArg (fun r ↦ (r.withTag latestTag).text) (run.reference_eq hi).symm
    rw [hlatest]
    obtain hsame | ⟨hproduction, hbuilt, hlast, -⟩ :=
      hcourse.registry_latest hi hv (hrun i v hi hv) d
    · exact .inl hsame
    · exact .inr ⟨i, v, hi, hv, hproduction, hbuilt, hlast⟩
  · have hnone := hcourse.effects_eq_nil fun i v hi hv ↦ hplanned ⟨i, v, hi, hv⟩
    refine .inl ?_
    rw [Docker.afterRun, Docker.after_eq]
    change ((effects (ReleaseTrain.calls _)).foldl Docker.apply d).registry _ = _
    rw [hnone]
    rfl

/-- Of any number of runs for one repository, whatever happened before, one whose tag is neither a
production tag nor `latest` leaves `latest` alone. One with a production tag changes the registry's
`latest` only when it has pushed the same image under that tag; when it ends with everything pushed,
both are the image that it built; and when the push of `latest` fails, the registry's `latest` is
what it was. -/
theorem latest_over_runs (d : Docker) (before : List (RepositoryRun σ registry name))
    (run : RepositoryRun σ registry name) {i : ImagePlan} {v : Version}
    (hi : run.plan.image = some i) (hv : Version.parse run.plan.version = .ok v) :
    let start := d.afterRuns before
    let tag := i.tag.getD v.text
    let primary := (ImageReference.new registry name tag).text
    let latest := (ImageReference.new registry name latestTag).text
    (isProductionTag tag = false → tag ≠ latestTag → ∀ cs, cs <+: run.calls →
        (start.after cs).bound latest = start.bound latest ∧
          (start.after cs).registry latest = start.registry latest) ∧
      (isProductionTag tag = true → ∀ pre c post, run.calls = pre ++ c :: post →
        ((start.after pre).step c).registry latest ≠ (start.after pre).registry latest →
        ∃ image, ((start.after pre).step c).registry latest = some image ∧
          (start.after pre).registry primary = some image ∧
          ∃ c' ∈ pre, c'.effect? = some (.push primary)) ∧
      (isProductionTag tag = true → ∀ o built refs, run.result = .ok o →
        o.image = .built built (.pushed refs) →
        ∃ image, start.Built run.calls primary image ∧
          (∀ reference, start.bound reference ≠ some image ∧
            start.registry reference ≠ some image) ∧
          (start.afterRun run).registry latest = some image ∧
          (start.afterRun run).registry primary = some image) ∧
      ∀ c ∈ run.calls, c.command.effect? = some (.push latest) → c.succeeded = false →
        (start.afterRun run).registry latest = start.registry latest := by
  intro start tag primary latest
  have hcourse := Pipeline.course_run run.env run.credentials run.plan run.start
  have hreference : ImageReference.new registry name tag = i.reference v :=
    (run.reference_eq hi).symm
  have hprimary : primary = (i.reference v).text := congrArg ImageReference.text hreference
  have hlatest : latest = ((i.reference v).withTag latestTag).text :=
    congrArg (fun r ↦ (r.withTag latestTag).text) hreference
  rw [hprimary, hlatest]
  refine ⟨?_, ?_, ?_, ?_⟩
  · intro hproduction hne cs hcs
    exact hcourse.latest_untouched hi hv hproduction hne hcs start
  · intro hproduction pre c post hcalls hchange
    exact hcourse.latest_changed hi hv hproduction hcalls hchange
  · intro hproduction o built refs ho hbuilt
    have hcourse := hcourse
    rw [show Session.result _ run.start = Except.ok o from ho] at hcourse
    obtain ⟨himage, hregistry⟩ :=
      Pipeline.latest_pushed (hcourse.effects_eq hi hv hbuilt) hproduction start
    exact ⟨start.next, himage, start.next_unbound, hregistry⟩
  · intro c hc hpush hfailed
    rw [Docker.afterRun, Docker.after_eq]
    exact Docker.registry_foldl_of_ne start (hcourse.latest_unpushed hi hv hc hpush hfailed)

theorem latest_over_runs_rehearsed :
    let run : RepositoryRun Rehearsal.State "registry.example.com" "agent" :=
      ⟨Rehearsal.surroundings [] false, none, ⟨"1.2.3", none, some ⟨"registry.example.com", "agent",
        none, ⟨"/Dockerfile"⟩, ⟨"/"⟩, "linux/amd64", "Release", false, ⟨false, true⟩, true⟩⟩,
        ⟨{}, {}, []⟩, fun _ h ↦ Option.some.inj h ▸ ⟨rfl, rfl⟩⟩
    ∃ image, (Docker.empty.afterRun run).registry "registry.example.com/agent:latest" = some image ∧
      (Docker.empty.afterRun run).registry "registry.example.com/agent:1.2.3" = some image := by
  intro run
  have hv : Version.parse run.plan.version = .ok ⟨"1", "2", "3", none⟩ := by
    change Version.parse "1.2.3" = _
    rfl
  have hresult : run.result.toOption.map RunOutcome.image =
      some (.built ⟨⟨"registry.example.com", "agent", "1.2.3"⟩,
        some ⟨"registry.example.com", "agent", "latest"⟩⟩
        (.pushed ["registry.example.com/agent:1.2.3", "registry.example.com/agent:latest"])) := by
    decide +kernel
  obtain ⟨o, ho, himage⟩ := Option.map_eq_some_iff.1 hresult
  have h := latest_over_runs Docker.empty [] run (show run.plan.image = some _ from rfl) hv
  obtain ⟨image, -, -, hlatest, hprimary⟩ := h.2.2.1 (by decide) o _ _ (eq_ok_of_toOption ho) himage
  exact ⟨image, hlatest, hprimary⟩

/-- Over any number of runs under other tags than `latest`, wherever each of them fails, nothing
becomes the registry's `latest` but an image that a run with a production tag has built. -/
theorem registry_latest_of_runs (d : Docker) (runs : List (RepositoryRun σ registry name))
    (hruns : ∀ run ∈ runs, ∀ i v, run.plan.image = some i →
      Version.parse run.plan.version = .ok v → i.tag.getD v.text ≠ latestTag) :
    let latest := (ImageReference.new registry name latestTag).text
    (d.afterRuns runs).registry latest = d.registry latest ∨
      ∃ before run later i v image, runs = before ++ run :: later ∧ run.plan.image = some i ∧
        Version.parse run.plan.version = .ok v ∧ isProductionTag (i.tag.getD v.text) = true ∧
        (d.afterRuns before).Built run.calls (i.reference v).text image ∧
        (d.afterRuns runs).registry latest = some image := by
  intro latest
  -- The runs that follow start from whatever the first one left.
  induction runs generalizing d with
  | nil => exact .inl rfl
  | cons run runs ih =>
    have hrest := ih (d.afterRun run) fun run' hrun' ↦ hruns run' (List.mem_cons_of_mem run hrun')
    obtain hsame | ⟨before, run', later, i, v, image, rfl, hi, hv, hproduction, hbuilt, hlast⟩ :=
      hrest
    · obtain hunchanged | ⟨i, v, hi, hv, hproduction, hbuilt, hlast⟩ := run.registry_latest d
        (hruns run List.mem_cons_self)
      · exact .inl (hsame.trans hunchanged)
      · exact .inr
          ⟨[], run, runs, i, v, d.next, rfl, hi, hv, hproduction, hbuilt, hsame.trans hlast⟩
    · exact .inr ⟨run :: before, run', later, i, v, image, rfl, hi, hv, hproduction, hbuilt, hlast⟩

end ReleaseTrain
