import ReleaseTrain.Proofs.RunSequence

namespace ReleaseTrain

open Session

/-- Of every command that is run, and of what was exchanged before it, `P` holds. -/
def EachCall (P : List Exchange → Call → Prop) (xs : List Exchange) : Prop :=
  ∀ pre c post, xs = pre ++ .call c :: post → P pre c

namespace EachCall

variable {P Q : List Exchange → Call → Prop} {xs ys : List Exchange} {c : Call}

theorem nil : EachCall P [] := by
  intro pre c post h
  simp at h

theorem append (hxs : EachCall P xs) (hys : EachCall (fun pre ↦ P (xs ++ pre)) ys) :
    EachCall P (xs ++ ys) := by
  intro pre c post h
  obtain ⟨zs, rfl, hzs⟩ | ⟨zs, hx, hzs⟩ := List.append_eq_append_iff.1 h
  · exact hys zs c post hzs
  -- The command stands at the very end of the first part, or inside it.
  cases zs with
  | nil =>
    rw [List.append_nil] at hx
    subst hx
    have hc := hys [] c post hzs.symm
    dsimp only at hc
    rwa [List.append_nil] at hc
  | cons z zs =>
    obtain ⟨rfl, -⟩ := List.cons.inj hzs
    exact hxs pre c zs hx

theorem call (hc : P [] c) (hxs : EachCall (fun pre ↦ P (.call c :: pre)) xs) :
    EachCall P (.call c :: xs) := by
  intro pre d post h
  cases pre with
  | nil =>
    obtain ⟨hd, -⟩ := List.cons.inj h
    cases hd
    exact hc
  | cons x pre =>
    obtain ⟨rfl, htail⟩ := List.cons.inj h
    exact hxs pre d post htail

theorem asked {q : String} {a : Bool} (hxs : EachCall (fun pre ↦ P (.asked q a :: pre)) xs) :
    EachCall P (.asked q a :: xs) := by
  intro pre d post h
  cases pre with
  | nil => cases (List.cons.inj h).1
  | cons x pre =>
    obtain ⟨rfl, htail⟩ := List.cons.inj h
    exact hxs pre d post htail

theorem of_mem (h : ∀ c ∈ calls xs, ∀ pre, P pre c) : EachCall P xs := by
  intro pre c post hxs
  refine h c ?_ pre
  rw [hxs, mem_calls]
  exact List.mem_append_right pre List.mem_cons_self

theorem mono (h : EachCall P xs) (hPQ : ∀ pre c, P pre c → Q pre c) : EachCall Q xs :=
  fun pre c post hxs ↦ hPQ pre c (h pre c post hxs)

end EachCall

namespace Invocation

/-- Whether the command is the container tool's `verb`. -/
def isDocker (verb : String) (i : Invocation) : Bool :=
  i.program = "docker" && i.arguments.head? = some verb

theorem isDocker_of_program {i : Invocation} (h : i.program ≠ "docker") (verb : String) :
    i.isDocker verb = false := by
  simp [isDocker, h]

theorem isDocker_cons (verb first : String) (arguments : List String) (timeoutMs : Nat) :
    (⟨"docker", first :: arguments, timeoutMs⟩ : Invocation).isDocker verb =
      decide (verb = first) := by
  simp [isDocker, eq_comm]

end Invocation

section Verbs

variable (verb : String)

theorem isDocker_infoCommand : infoCommand.isDocker verb = decide (verb = "info") :=
  Invocation.isDocker_cons _ _ _ _

theorem isDocker_tagCommand (source target : ImageReference) :
    (tagCommand source target).isDocker verb = decide (verb = "tag") :=
  Invocation.isDocker_cons _ _ _ _

theorem isDocker_loginCommand (host : String) :
    (loginCommand host).isDocker verb = decide (verb = "login") :=
  Invocation.isDocker_cons _ _ _ _

theorem isDocker_pushCommand (reference : String) :
    (pushCommand reference).isDocker verb = decide (verb = "push") :=
  Invocation.isDocker_cons _ _ _ _

theorem isDocker_command (request : BuildRequest) :
    request.command.isDocker verb =
      decide (verb = if request.isMultiPlatform then "buildx" else "build") := by
  unfold BuildRequest.command
  cases request.isMultiPlatform <;> exact Invocation.isDocker_cons _ _ _ _

theorem ne_command_of_isDocker {verb : String} {command : Invocation}
    (h : command.isDocker verb = true) (hbuild : verb ≠ "build") (hbuildx : verb ≠ "buildx")
    (request : BuildRequest) : command ≠ request.command := by
  intro heq
  rw [heq, isDocker_command] at h
  have hverb := of_decide_eq_true h
  split at hverb
  · exact hbuildx hverb
  · exact hbuild hverb

end Verbs

theorem Packaging.program_of_mem_steps {s : Settings} {v : Version} {p : Platform}
    {step : Mode × Invocation} (h : step ∈ steps s v p) : step.2.program ≠ "docker" := by
  unfold steps at h
  simp only [List.mem_cons, List.mem_append, List.mem_ite_nil_right, List.not_mem_nil,
    or_false] at h
  have hdotnet : "dotnet" ≠ "docker" := by decide
  have hditto : "ditto" ≠ "docker" := by decide
  obtain rfl | ⟨-, rfl⟩ | rfl := h
  · exact hdotnet
  · exact hditto
  · exact hdotnet

theorem Plan.mem_packagingSteps {plan : Plan} {v : Version} {step : Mode × Invocation}
    (h : step ∈ plan.packagingSteps v) :
    ∃ package platform, plan.package = some package ∧
      step ∈ Packaging.steps package.settings v platform := by
  unfold Plan.packagingSteps at h
  cases hp : plan.package with
  | none => simp [hp] at h
  | some p =>
    rw [hp] at h
    change step ∈ p.steps v at h
    unfold PackagePlan.steps at h
    cases hps : Platform.resolve p.selector p.settings.host with
    | error e => simp [hps] at h
    | ok ps =>
      rw [hps] at h
      obtain ⟨platform, -, hstep⟩ := List.mem_flatMap.1 h
      exact ⟨p, platform, rfl, hstep⟩

theorem Plan.program_of_mem_packagingSteps {plan : Plan} {v : Version} {step : Mode × Invocation}
    (h : step ∈ plan.packagingSteps v) : step.2.program ≠ "docker" := by
  obtain ⟨package, platform, -, hstep⟩ := Plan.mem_packagingSteps h
  exact Packaging.program_of_mem_steps hstep

theorem InTurn.order_mem {planned : List (Mode × Invocation)} {cs : List Call} {all : Bool}
    (h : InTurn planned cs all) {c : Call} (hc : c ∈ cs) : c.order ∈ planned :=
  h.order_prefix.subset (List.mem_map_of_mem hc)

/-- The container tool's commands with one verb, of those planned. -/
def ofVerb (verb : String) (planned : List (Mode × Invocation)) : List Invocation :=
  (planned.map Prod.snd).filter (Invocation.isDocker verb)

/-- The container tool's commands with one verb, of those that were run. -/
def issued (verb : String) (xs : List Exchange) : List Invocation :=
  ofVerb verb ((calls xs).map Call.order)

theorem mem_issued {verb : String} {xs : List Exchange} {command : Invocation} :
    command ∈ issued verb xs ↔
      ∃ c, .call c ∈ xs ∧ c.command = command ∧ command.isDocker verb = true := by
  simp only [issued, ofVerb, List.map_map, List.mem_filter, List.mem_map, mem_calls,
    Function.comp_apply, Call.order]
  constructor
  · intro h
    obtain ⟨⟨c, hc, heq⟩, hverb⟩ := h
    exact ⟨c, hc, heq, hverb⟩
  · intro h
    obtain ⟨c, hc, heq, hverb⟩ := h
    exact ⟨⟨c, hc, heq⟩, hverb⟩

theorem ofVerb_append (verb : String) (planned planned' : List (Mode × Invocation)) :
    ofVerb verb (planned ++ planned') = ofVerb verb planned ++ ofVerb verb planned' := by
  rw [ofVerb, List.map_append, List.filter_append]
  rfl

theorem ofVerb_cons (verb : String) (mode : Mode) (command : Invocation)
    (planned : List (Mode × Invocation)) :
    ofVerb verb ((mode, command) :: planned) =
      (if command.isDocker verb then [command] else []) ++ ofVerb verb planned := by
  unfold ofVerb
  rw [List.map_cons, List.filter_cons]
  split <;> rfl

theorem ofVerb_map {α : Type} {verb own : String} {command : α → Invocation}
    (h : ∀ a, (command a).isDocker verb = decide (verb = own)) (mode : Mode) (as : List α) :
    ofVerb verb (as.map fun a ↦ (mode, command a)) =
      if verb = own then as.map command else [] := by
  induction as with
  | nil => exact (ite_self _).symm
  | cons a as ih =>
    rw [List.map_cons, ofVerb_cons, ih, h a]
    by_cases hverb : verb = own
    · simp [hverb]
    · simp [hverb]

theorem ofVerb_buildCommands (verb : String) (request : BuildRequest) :
    ofVerb verb (Image.buildCommands request) =
      (if verb = "info" then [infoCommand] else []) ++
        ((if verb = (if request.isMultiPlatform then "buildx" else "build") then
            [request.command] else []) ++
          if verb = "tag" then request.image.latestAlias.toList.map (tagCommand request.image)
          else []) := by
  unfold Image.buildCommands
  rw [ofVerb_cons, ofVerb_cons, ofVerb_map (isDocker_tagCommand verb request.image),
    isDocker_infoCommand, isDocker_command]
  simp only [decide_eq_true_eq]

theorem ofVerb_publishCommands (verb : String) (image : BuiltImage) (options : PublishOptions)
    (agreed : Option Bool) :
    ofVerb verb (Publish.commands image options agreed) =
      if options.noPush = true ∨ agreed = some false then []
      else
        (if verb = "login" ∧ agreed = some true then [loginCommand image.primary.registryHost]
          else []) ++
          if verb = "push" then image.references.map fun r ↦ pushCommand r.text else [] := by
  rw [Publish.commands_eq_references]
  by_cases hnone : options.noPush = true ∨ agreed = some false
  · rw [if_pos hnone, if_pos hnone]
    rfl
  · rw [if_neg hnone, if_neg hnone, ofVerb_append,
      ofVerb_map (fun r : ImageReference ↦ isDocker_pushCommand verb r.text)]
    congr 1
    by_cases hlogin : agreed = some true
    · rw [if_pos hlogin, ofVerb_cons, isDocker_loginCommand]
      simp [hlogin, ofVerb]
    · rw [if_neg hlogin, if_neg fun h ↦ hlogin h.2]
      rfl

theorem ofVerb_packagingSteps (verb : String) (plan : Plan) (v : Version) :
    ofVerb verb (plan.packagingSteps v) = [] := by
  refine List.filter_eq_nil_iff.2 fun command h ↦ ?_
  obtain ⟨step, hstep, rfl⟩ := List.mem_map.1 h
  rw [Invocation.isDocker_of_program (Plan.program_of_mem_packagingSteps hstep)]
  simp

theorem ImagePlan.ofVerb_commands (verb : String) (i : ImagePlan) (v : Version)
    (answer : String → Option Bool) :
    ofVerb verb (i.commands v answer) =
      if answer Pipeline.buildQuestion = some false then []
      else ofVerb verb (Image.buildCommands (i.request v)) ++
        ofVerb verb (Publish.commands ⟨i.reference v, (i.reference v).latestAlias⟩ i.publish
          (answer (Publish.loginQuestion (i.reference v).registryHost))) := by
  rw [ImagePlan.commands_eq]
  split
  · rfl
  · exact ofVerb_append _ _ _

namespace Image.Building

theorem command_eq {request : BuildRequest} {cs : List Call} {r : Except ReleaseError BuiltImage}
    (h : Building request cs r) {c : Call} (hc : c ∈ cs) :
    c.command = infoCommand ∨ c.command = request.command ∨
      ∃ latest, request.image.latestAlias = some latest ∧
        c.command = tagCommand request.image latest := by
  have hmem := h.inTurn.order_mem hc
  unfold buildCommands at hmem
  simp only [List.mem_cons, List.mem_map, Option.mem_toList, Call.order, Prod.mk.injEq] at hmem
  obtain ⟨-, hinfo⟩ | ⟨-, hbuild⟩ | ⟨latest, halias, -, htag⟩ := hmem
  · exact .inl hinfo
  · exact .inr (.inl hbuild)
  · exact .inr (.inr ⟨latest, halias, htag.symm⟩)

theorem isDocker_eq_false {request : BuildRequest} {cs : List Call}
    {r : Except ReleaseError BuiltImage} (h : Building request cs r) {c : Call} (hc : c ∈ cs)
    {verb : String} (hverb : verb ∉ ["info", "build", "buildx", "tag"]) :
    c.command.isDocker verb = false := by
  simp only [List.mem_cons, List.not_mem_nil, or_false, not_or] at hverb
  obtain ⟨hinfo, hbuild, hbuildx, htag⟩ := hverb
  obtain hc | hc | ⟨latest, -, hc⟩ := h.command_eq hc
  · rw [hc, isDocker_infoCommand, decide_eq_false hinfo]
  · rw [hc, isDocker_command]
    split
    · exact decide_eq_false hbuildx
    · exact decide_eq_false hbuild
  · rw [hc, isDocker_tagCommand, decide_eq_false htag]

end Image.Building

theorem Publish.Publishing.command_eq {interactive : Bool} {found : Except ReleaseError Bool}
    {image : BuiltImage} {options : PublishOptions} {xs : List Exchange}
    {r : Except ReleaseError PublishOutcome} (h : Publishing interactive found image options xs r)
    {c : Call} (hc : .call c ∈ xs) :
    c.command = loginCommand image.primary.registryHost ∨
      ∃ reference, c.command = pushCommand reference := by
  have hmem := h.inTurn.order_mem (mem_calls.2 hc)
  rw [commands_eq_references] at hmem
  simp only [List.mem_ite_nil_left, List.mem_append, List.mem_ite_nil_right, List.mem_singleton,
    List.mem_map, Call.order, Prod.mk.injEq] at hmem
  obtain ⟨-, ⟨-, -, hlogin⟩ | ⟨reference, -, -, hpush⟩⟩ := hmem
  · exact .inl hlogin
  · exact .inr ⟨reference.text, hpush.symm⟩

namespace Publish.Pushing

/-- Each push comes after those of the references before it, and they succeeded. -/
theorem eachCall {published left : List String} {cs : List Call}
    {r : Except ReleaseError (List String)} (h : Pushing published left cs r) :
    EachCall (fun pre c ↦ ∃ pushed reference rest, left = pushed ++ reference :: rest ∧
      c.command = pushCommand reference ∧
      pre = pushed.map fun s ↦ .call (.done .captured (pushCommand s))) (cs.map .call) := by
  induction h with
  | finished published => exact .nil
  | @pushed published reference left cs r _ ih =>
    refine .call ⟨[], reference, left, rfl, rfl, rfl⟩ (ih.mono ?_)
    intro pre c h
    obtain ⟨pushed, s, rest, rfl, hc, rfl⟩ := h
    exact ⟨reference :: pushed, s, rest, rfl, hc, rfl⟩
  | failed published left ha => exact .call ⟨[], _, left, rfl, rfl, rfl⟩ .nil

end Publish.Pushing

namespace Pipeline

open Image Publish

theorem Course.issued_prefix {σ : Type} {env : Surroundings σ} {credentials : Option Path}
    {plan : Plan} {w : World σ} {xs : List Exchange} {r : Except ReleaseError RunOutcome}
    (h : Course env credentials plan w xs r) (verb : String) :
    issued verb xs <+: ofVerb verb (plan.commands (answerTo? · xs)) :=
  (h.inTurn.order_prefix.map Prod.snd).filter (Invocation.isDocker verb)

/-- What holds of each command of a run is shown for the commands of packaging, of a build and of
publishing, each with whatever was exchanged before its stage. -/
theorem Course.eachCall {σ : Type} {env : Surroundings σ} {credentials : Option Path} {plan : Plan}
    {w : World σ} {xs : List Exchange} {r : Except ReleaseError RunOutcome}
    {P : List Exchange → Call → Prop} (h : Course env credentials plan w xs r)
    (hpackage : ∀ pre c, c.command.program ≠ "docker" → P pre c)
    (hbuild : ∀ before i v ds s, plan.image = some i → Version.parse plan.version = .ok v →
      Building (i.request v) ds s → EachCall (fun pre ↦ P (before ++ pre)) (ds.map .call))
    (hpublish : ∀ before i v package image w₁ ds ys s, plan.image = some i →
      Version.parse plan.version = .ok v → produce env plan w = .ok ⟨v, package, some image⟩ w₁ →
      Building (i.request v) ds (.ok image) →
      Publishing env.interactive
        (credentialsFound credentials w₁.files image.primary.registryHost) image i.publish ys s →
      EachCall (fun pre ↦ P (before ++ ds.map .call ++ pre)) ys) : EachCall P xs := by
  have hpackaging {v : Version} {cs : List Call} {all : Bool}
      (hcs : InTurn (plan.packagingSteps v) cs all) : EachCall P (cs.map .call) := by
    refine .of_mem fun c hc pre ↦ hpackage pre c ?_
    rw [calls_map_call] at hc
    exact Plan.program_of_mem_packagingSteps (hcs.order_mem hc)
  have hconsent {assumeYes : Bool} {consent : List Exchange} (before : List Exchange)
      (hagreed : Agreed assumeYes consent) : EachCall (fun pre ↦ P (before ++ pre)) consent := by
    refine .of_mem fun c hc ↦ ?_
    rw [hagreed.calls_eq] at hc
    cases hc
  cases h with
  | refused _ _ => exact .nil
  | unpackaged _ _ hcs | imageless _ _ hcs _ => exact hpackaging hcs
  -- A question is no command, so a cancelled build adds nothing to show.
  | cancelled _ _ hcs _ _ => exact (hpackaging hcs).append (.asked .nil)
  | @unbuilt v cs ds i consent e w₁ _ hv hcs hi hagreed hds =>
    refine (hpackaging hcs).append ((hconsent _ hagreed).append ?_)
    refine (hbuild (cs.map .call ++ consent) i v ds _ hi hv hds).mono fun pre c h ↦ ?_
    rwa [← List.append_assoc]
  | @published v cs ds package i consent ys image w₁ s hw hv hcs hi hagreed hds hys =>
    refine ((hpackaging hcs).append ((hconsent _ hagreed).append ?_)).append ?_
    · refine (hbuild (cs.map .call ++ consent) i v ds _ hi hv hds).mono fun pre c h ↦ ?_
      rwa [← List.append_assoc]
    · refine (hpublish (cs.map .call ++ consent) i v package image w₁ ds ys s hi hv hw hds
        hys).mono fun pre c h ↦ ?_
      rwa [← List.append_assoc (cs.map Exchange.call)]

end Pipeline

end ReleaseTrain
