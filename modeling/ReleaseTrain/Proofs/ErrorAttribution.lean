import ReleaseTrain.Proofs.Blame
import ReleaseTrain.Proofs.InputGate

namespace ReleaseTrain

open Session

variable {σ : Type}

/-- Whether the error is a verdict on the one command that it names. -/
def ReleaseError.isRefusal : ReleaseError → Bool
  | companionBuildFailed _ _ | agentBuildFailed _ _ | imageBuildFailed _ _ | loginFailed _ _ => true
  | _ => false

theorem ReleaseError.isVerdict_of_isRefusal {e : ReleaseError} (h : e.isRefusal = true) :
    e.isVerdict = true := by
  cases e <;> first | rfl | cases h

theorem failureOf_eq {refusal : Outcome → ReleaseError} {a : Except ReleaseError Outcome}
    {e : ReleaseError} (h : failureOf refusal a = e) :
    a = .error e ∨ ∃ outcome, a = .ok outcome ∧ refusal outcome = e := by
  cases a with
  | error cause => exact .inl (congrArg Except.error h)
  | ok outcome => exact .inr ⟨outcome, rfl, h⟩

theorem pushCommand_inj {reference reference' : String}
    (h : pushCommand reference = pushCommand reference') : reference = reference' := by
  simpa [pushCommand] using h

theorem Call.succeeded_eq_false_iff {c : Call} {code : Option Int} (hr : c.result = .ok ⟨code⟩) :
    c.succeeded = false ↔ code ≠ some 0 := by
  rw [← Bool.not_eq_true, Call.succeeded_iff, hr]
  simp

section Publishes

variable {s : Settings} {v : Version} {p q : Platform} {archive archive' : Path}

theorem companionCommand_inj (h : companionCommand s p v = companionCommand s q v) : p = q := by
  simp only [companionCommand, publishArguments, Invocation.mk.injEq, List.cons.injEq] at h
  exact Platform.id_inj.1 h.2.1.2.2.2.2.2.1

theorem agentCommand_inj (h : agentCommand s p v archive = agentCommand s q v archive') :
    p = q := by
  simp only [agentCommand, publishArguments, Invocation.mk.injEq, List.cons_append,
    List.cons.injEq] at h
  exact Platform.id_inj.1 h.2.1.2.2.2.2.2.1

theorem companionCommand_ne_agentCommand : companionCommand s p v ≠ agentCommand s q v archive := by
  intro h
  have hlength := congrArg (fun i ↦ i.arguments.length) h
  simp [companionCommand, agentCommand, publishArguments] at hlength

end Publishes

/-- The surroundings' own report of a command that did not come to an end is handed on as it is. The
daemon's check, a login and a push have errors of their own for that. -/
def Invocation.HandsOn (i : Invocation) : Prop :=
  ∀ verb ∈ ["info", "login", "push"], i.isDocker verb = false

theorem Invocation.handsOn_of_program {i : Invocation} (h : i.program ≠ "docker") : i.HandsOn :=
  fun verb _ ↦ isDocker_of_program h verb

theorem BuildRequest.handsOn_command (request : BuildRequest) : request.command.HandsOn := by
  intro verb hverb
  rw [isDocker_command]
  fin_cases hverb <;> (split <;> decide)

theorem handsOn_tagCommand (source target : ImageReference) :
    (tagCommand source target).HandsOn := by
  intro verb hverb
  rw [isDocker_tagCommand]
  fin_cases hverb <;> decide

namespace Packaging.Blames

variable {s : Settings} {v : Version} {c : Call} {e e' : ReleaseError}

theorem program_ne (h : Blames s v c e) : c.command.program ≠ "docker" := by
  have hdotnet : "dotnet" ≠ "docker" := by decide
  have hditto : "ditto" ≠ "docker" := by decide
  cases h with
  | companion p hc | agent p hc =>
    rw [hc]
    exact hdotnet
  | ditto p hc =>
    rw [hc]
    exact hditto

theorem unique (h : Blames s v c e) (h' : Blames s v c e') (hpublish : c.command.program = "dotnet") :
    e = e' := by
  have hditto {bundle archive : Path} (hc : c.command = dittoCommand bundle archive) : False := by
    rw [hc] at hpublish
    exact absurd hpublish (show "ditto" ≠ "dotnet" by decide)
  cases h with
  | companion p hc =>
    cases h' with
    | companion q hc' => rw [companionCommand_inj (hc.symm.trans hc')]
    | ditto q hc' => exact (hditto hc').elim
    | agent q hc' => exact absurd (hc.symm.trans hc') companionCommand_ne_agentCommand
  | ditto p hc => exact (hditto hc).elim
  | agent p hc =>
    cases h' with
    | companion q hc' => exact absurd (hc'.symm.trans hc) companionCommand_ne_agentCommand
    | ditto q hc' => exact (hditto hc').elim
    | agent q hc' => rw [agentCommand_inj (hc.symm.trans hc')]

theorem eq_of_result_error (h : Blames s v c e) {cause : ReleaseError}
    (hc : c.result = .error cause) : e = cause := by
  cases h <;> (rw [hc]; rfl)

theorem refused (h : Blames s v c e) (he : e.isVerdict = true) : c.result = .error e ∨
    ∃ p code, c.result = .ok ⟨code⟩ ∧
      (c.command = companionCommand s p v ∧ e = .companionBuildFailed p.id code ∨
        c.command = agentCommand s p v (slotArchive s.stagingRoot p) ∧
          e = .agentBuildFailed p.id code) := by
  cases h with
  | companion p hc =>
    refine (failureOf_eq rfl).imp_right fun h ↦ ?_
    obtain ⟨⟨code⟩, hr, hrefusal⟩ := h
    exact ⟨p, code, hr, .inl ⟨hc, hrefusal.symm⟩⟩
  | ditto p hc =>
    refine (failureOf_eq rfl).imp_right fun h ↦ ?_
    obtain ⟨outcome, -, hrefusal⟩ := h
    rw [← hrefusal] at he
    cases he
  | agent p hc =>
    refine (failureOf_eq rfl).imp_right fun h ↦ ?_
    obtain ⟨⟨code⟩, hr, hrefusal⟩ := h
    exact ⟨p, code, hr, .inr ⟨hc, hrefusal.symm⟩⟩

end Packaging.Blames

namespace Image.Blames

variable {request : BuildRequest} {c : Call} {e e' : ReleaseError}

theorem program_eq (h : Blames request c e) : c.command.program = "docker" := by
  cases h with
  | daemon hc | build hc | tag _ hc =>
    rw [hc]
    rfl

theorem isDocker_eq_false (h : Blames request c e) {verb : String}
    (hverb : verb ∉ ["info", "build", "buildx", "tag"]) : c.command.isDocker verb = false := by
  simp only [List.mem_cons, List.not_mem_nil, or_false, not_or] at hverb
  obtain ⟨hinfo, hbuild, hbuildx, htag⟩ := hverb
  cases h with
  | daemon hc => rw [hc, isDocker_infoCommand, decide_eq_false hinfo]
  | build hc =>
    rw [hc, isDocker_command]
    split
    · exact decide_eq_false hbuildx
    · exact decide_eq_false hbuild
  | tag latest hc => rw [hc, isDocker_tagCommand, decide_eq_false htag]

theorem of_infoCommand (h : Blames request c e) (hinfo : c.command.isDocker "info" = true) :
    e = daemonFailure c.result := by
  cases h with
  | daemon _ => rfl
  | build hc =>
    rw [hc, request.handsOn_command "info" (by simp)] at hinfo
    cases hinfo
  | tag latest hc =>
    rw [hc, handsOn_tagCommand _ _ "info" (by simp)] at hinfo
    cases hinfo

theorem of_command (h : Blames request c e) (hbuild : c.command = request.command) :
    e = buildFailure request c.result := by
  cases h with
  | daemon hc =>
    have hinfo := isDocker_infoCommand "info"
    rw [← hc, hbuild, request.handsOn_command "info" (by simp)] at hinfo
    cases hinfo
  | build _ => rfl
  | tag latest hc =>
    exact absurd (hc.symm.trans hbuild)
      (ne_command_of_isDocker (isDocker_tagCommand "tag" _ _) (by decide) (by decide) request)

theorem eq_of_result_error (h : Blames request c e) (hhands : c.command.HandsOn)
    {cause : ReleaseError} (hr : c.result = .error cause) : e = cause := by
  cases h with
  | daemon hc =>
    have hinfo := hhands "info" (by simp)
    rw [hc, isDocker_infoCommand] at hinfo
    cases hinfo
  | build _ | tag _ _ =>
    rw [hr]
    rfl

theorem refused (h : Blames request c e) (he : e.isVerdict = true) :
    c.result = .error e ∧ c.command.HandsOn ∨ ∃ code, c.result = .ok ⟨code⟩ ∧
      c.command = request.command ∧ e = .imageBuildFailed request.image.text code := by
  cases h with
  | daemon _ =>
    -- Whatever the daemon's check comes to, the error is one of carrying out a command.
    cases hr : c.result <;> (rw [hr] at he; cases he)
  | build hc =>
    obtain hr | ⟨⟨code⟩, hr, hrefusal⟩ := failureOf_eq (show _ = buildFailure request c.result from rfl)
    · exact .inl ⟨hr, hc ▸ request.handsOn_command⟩
    · exact .inr ⟨code, hr, hc, hrefusal.symm⟩
  | tag latest hc =>
    obtain hr | ⟨outcome, -, hrefusal⟩ :=
      failureOf_eq (show _ = tagFailure request.image latest c.result from rfl)
    · exact .inl ⟨hr, hc ▸ handsOn_tagCommand _ _⟩
    · rw [← hrefusal] at he
      cases he

end Image.Blames

namespace Publish.Blames

variable {primary : ImageReference} {c : Call} {e : ReleaseError}

theorem program_eq (h : Blames primary c e) : c.command.program = "docker" := by
  cases h with
  | login hc | push _ _ hc =>
    rw [hc]
    rfl

theorem isDocker_eq_false (h : Blames primary c e) {verb : String}
    (hverb : verb ∉ ["login", "push"]) : c.command.isDocker verb = false := by
  simp only [List.mem_cons, List.not_mem_nil, or_false, not_or] at hverb
  cases h with
  | login hc => rw [hc, isDocker_loginCommand, decide_eq_false hverb.1]
  | push reference published hc => rw [hc, isDocker_pushCommand, decide_eq_false hverb.2]

theorem of_login (h : Blames primary c e) (hlogin : c.command.isDocker "login" = true) :
    e = .loginFailed primary.registryHost primary.text := by
  cases h with
  | login _ => rfl
  | push reference published hc =>
    rw [hc, isDocker_pushCommand] at hlogin
    cases hlogin

theorem of_push {reference : String} (h : Blames primary c e)
    (hpush : c.command = pushCommand reference) : ∃ published, e = .pushFailed reference published := by
  cases h with
  | login hc => exact absurd (hc.symm.trans hpush) (loginCommand_ne_pushCommand _ _)
  | push reference' published hc =>
    obtain rfl := pushCommand_inj (hc.symm.trans hpush)
    exact ⟨published, rfl⟩

theorem not_handsOn (h : Blames primary c e) : ¬c.command.HandsOn := by
  intro hhands
  cases h with
  | login hc =>
    have hlogin := hhands "login" (by simp)
    rw [hc, isDocker_loginCommand] at hlogin
    cases hlogin
  | push reference published hc =>
    have hpush := hhands "push" (by simp)
    rw [hc, isDocker_pushCommand] at hpush
    cases hpush

end Publish.Blames

namespace Pipeline

open Image Publish

variable {env : Surroundings σ} {credentials : Option Path} {plan : Plan} {v : Version}
  {w w₁ : World σ} {c : Call} {e : ReleaseError}

/-- The verdicts on a command, each with all that it says. -/
inductive Verdict (plan : Plan) (v : Version) (c : Call) : ReleaseError → Prop
  | companion {pp : PackagePlan} (p : Platform) (code : Option Int) : plan.package = some pp →
      c.command = companionCommand pp.settings p v → c.result = .ok ⟨code⟩ →
      Verdict plan v c (.companionBuildFailed p.id code)
  | agent {pp : PackagePlan} (p : Platform) (code : Option Int) : plan.package = some pp →
      c.command = agentCommand pp.settings p v (slotArchive pp.settings.stagingRoot p) →
      c.result = .ok ⟨code⟩ → Verdict plan v c (.agentBuildFailed p.id code)
  | image {i : ImagePlan} {image : String} (code : Option Int) : plan.image = some i →
      (i.reference v).text = image → c.command = (i.request v).command → c.result = .ok ⟨code⟩ →
      Verdict plan v c (.imageBuildFailed image code)
  | login {i : ImagePlan} {registry image : String} : plan.image = some i →
      (i.reference v).registryHost = registry → (i.reference v).text = image →
      c.command.isDocker "login" = true → Verdict plan v c (.loginFailed registry image)
  | push (reference : String) (published : List String) : c.command = pushCommand reference →
      Verdict plan v c (.pushFailed reference published)

namespace Blames

theorem of_program_ne {pp : PackagePlan} (h : Blames plan v c e) (hp : plan.package = some pp)
    (hprogram : c.command.program ≠ "docker") : Packaging.Blames pp.settings v c e := by
  cases h with
  | packaging hp' h =>
    rw [hp] at hp'
    cases hp'
    exact h
  | building _ h => exact absurd h.program_eq hprogram
  | publishing _ h => exact absurd h.program_eq hprogram

theorem of_program_eq {i : ImagePlan} (h : Blames plan v c e) (hi : plan.image = some i)
    (hprogram : c.command.program = "docker") :
    Image.Blames (i.request v) c e ∨ Publish.Blames (i.reference v) c e := by
  cases h with
  | packaging _ h => exact absurd hprogram h.program_ne
  | building hi' h =>
    rw [hi] at hi'
    cases hi'
    exact .inl h
  | publishing hi' h =>
    rw [hi] at hi'
    cases hi'
    exact .inr h

theorem eq_of_handsOn (h : Blames plan v c e) (hhands : c.command.HandsOn) {cause : ReleaseError}
    (hr : c.result = .error cause) : e = cause := by
  cases h with
  | packaging _ h => exact h.eq_of_result_error hr
  | building _ h => exact h.eq_of_result_error hhands hr
  | publishing _ h => exact absurd hhands h.not_handsOn

theorem of_info (h : Blames plan v c e) (hinfo : c.command.isDocker "info" = true) :
    e = daemonFailure c.result := by
  cases h with
  | packaging _ h =>
    rw [Invocation.isDocker_of_program h.program_ne] at hinfo
    cases hinfo
  | building _ h => exact h.of_infoCommand hinfo
  | publishing _ h =>
    rw [h.isDocker_eq_false (by decide)] at hinfo
    cases hinfo

theorem of_login {i : ImagePlan} (h : Blames plan v c e) (hi : plan.image = some i)
    (hlogin : c.command.isDocker "login" = true) :
    e = .loginFailed (i.reference v).registryHost (i.reference v).text := by
  have hprogram : c.command.program = "docker" := by
    by_contra hne
    rw [Invocation.isDocker_of_program hne] at hlogin
    cases hlogin
  obtain h | h := h.of_program_eq hi hprogram
  · rw [h.isDocker_eq_false (by decide)] at hlogin
    cases hlogin
  · exact h.of_login hlogin

theorem of_push {reference : String} (h : Blames plan v c e)
    (hpush : c.command = pushCommand reference) :
    ∃ published, e = .pushFailed reference published := by
  have hverb := isDocker_pushCommand "push" reference
  rw [← hpush] at hverb
  cases h with
  | packaging _ h =>
    rw [Invocation.isDocker_of_program h.program_ne] at hverb
    cases hverb
  | building _ h =>
    rw [h.isDocker_eq_false (by decide)] at hverb
    cases hverb
  | publishing _ h => exact h.of_push hpush

theorem verdict (h : Blames plan v c e) (he : e.isVerdict = true) :
    c.result = .error e ∧ c.command.HandsOn ∨ Verdict plan v c e := by
  cases h with
  | packaging hp h =>
    obtain hr | ⟨p, code, hr, ⟨hc, rfl⟩ | ⟨hc, rfl⟩⟩ := h.refused he
    · exact .inl ⟨hr, Invocation.handsOn_of_program h.program_ne⟩
    · exact .inr (.companion p code hp hc hr)
    · exact .inr (.agent p code hp hc hr)
  | building hi h =>
    obtain hr | ⟨code, hr, hc, rfl⟩ := h.refused he
    · exact .inl hr
    · exact .inr (.image code hi rfl hc hr)
  | publishing hi h =>
    refine .inr ?_
    cases h with
    | login hc => exact .login hi rfl rfl (by rw [hc, isDocker_loginCommand]; rfl)
    | push reference published hc => exact .push reference published hc

end Blames

/-- A command with a verdict is to blame for no other error, but for what a push is told of the ones
before it. -/
theorem Verdict.eq {e' : ReleaseError} (h : Verdict plan v c e) (h' : Blames plan v c e') :
    e' = e ∨ ∃ reference published published',
      e = .pushFailed reference published ∧ e' = .pushFailed reference published' := by
  have hdotnet : "dotnet" ≠ "docker" := by decide
  cases h with
  | companion p code hp hc hr =>
    have hprogram : c.command.program = "dotnet" := congrArg Invocation.program hc
    have hown := Packaging.Blames.companion p hc
    rw [(h'.of_program_ne hp (hprogram ▸ hdotnet)).unique hown hprogram, hr]
    exact .inl rfl
  | agent p code hp hc hr =>
    have hprogram : c.command.program = "dotnet" := congrArg Invocation.program hc
    have hown := Packaging.Blames.agent p hc
    rw [(h'.of_program_ne hp (hprogram ▸ hdotnet)).unique hown hprogram, hr]
    exact .inl rfl
  | image code hi himage hc hr =>
    obtain h' | h' := h'.of_program_eq hi (congrArg Invocation.program hc)
    · rw [h'.of_command hc, hr, ← himage]
      exact .inl rfl
    · exact absurd (hc ▸ BuildRequest.handsOn_command _) h'.not_handsOn
  | login hi hregistry himage hlogin =>
    rw [h'.of_login hi hlogin, hregistry, himage]
    exact .inl rfl
  | push reference published hc =>
    obtain ⟨published', rfl⟩ := h'.of_push hc
    exact .inr ⟨reference, published, published', rfl, rfl⟩

/-- The surroundings came up with this error for the last command, and it is handed on. -/
def HandedOn (e : ReleaseError) (xs : List Exchange) : Prop :=
  ∃ c, (calls xs).getLast? = some c ∧ c.result = .error e ∧ c.command.HandsOn

theorem packageEach_of_unfound {s : Settings} {before : List Platform} {p : Platform}
    (later : List Platform) (h : Packaging.untilAgent env s v before p w = .ok () w₁)
    (habsent : w₁.files.isFile (s.agentBinary p).bytes = false) :
    Packaging.packageEach env s v (before ++ p :: later) w =
      .error (.artifactNotFound p.id (s.agentBinary p)) w₁ := by
  induction before generalizing w with
  | nil =>
    obtain ⟨_, _, hnone, h⟩ := bind_eq_ok.1 h
    cases hnone
    obtain ⟨archive, w₂, hover, hagent⟩ := bind_eq_ok.1 h
    refine bind_of_error ?_
    rw [Packaging.packagePlatform_eq]
    exact (bind_of_ok hover).trans ((bind_of_ok hagent).trans (Packaging.verify_of_absent habsent))
  | cons q before ih =>
    obtain ⟨artifacts, w₂, hbefore, hrest⟩ := bind_eq_ok.1 h
    obtain ⟨a, w₃, hq, -⟩ := bind_eq_ok.1 hbefore
    have hrest : Packaging.untilAgent env s v before p w₃ = .ok () w₁ :=
      (Packaging.untilAgent_cons before p hq).symm.trans h
    exact (bind_of_ok hq).trans (bind_of_error (ih hrest))

theorem run_of_unfound (credentials : Option Path) (hv : Version.parse plan.version = .ok v)
    {pp : PackagePlan} {before later : List Platform} {p : Platform} (hp : plan.package = some pp)
    (hps : Platform.resolve pp.selector pp.settings.host = .ok (before ++ p :: later))
    (h : untilAgent env v pp before p w = .ok () w₁)
    (habsent : w₁.files.isFile (pp.settings.agentBinary p).bytes = false) :
    run env credentials plan w =
      .error (.artifactNotFound p.id (pp.settings.agentBinary p)) w₁ := by
  obtain ⟨_, w₂, hreport, h⟩ := bind_eq_ok.1 h
  obtain ⟨ps, w₃, hannounce, h⟩ := bind_eq_ok.1 h
  obtain ⟨_, w₄, hclean, h⟩ := bind_eq_ok.1 h
  have hresolved := resolve_of_announce hannounce
  rw [hps] at hresolved
  cases hresolved
  have hpackage : runPackage env pp v w₂ =
      .error (.artifactNotFound p.id (pp.settings.agentBinary p)) w₁ := by
    rw [runPackage_eq]
    refine (bind_of_ok hannounce).trans ?_
    rw [Packaging.package_eq]
    exact (bind_of_ok hclean).trans (bind_of_error (packageEach_of_unfound later h habsent))
  refine bind_of_error ?_
  rw [produce_of_version env hv, hp]
  refine (bind_of_ok hreport).trans (bind_of_error ?_)
  change (some <$> runPackage env pp v) w₂ = _
  rw [map_eq_pure_bind]
  exact bind_of_error hpackage

theorem last_of_untilAgent {pp : PackagePlan} {before : List Platform} {p : Platform}
    (h : untilAgent env v pp before p w = .ok () w₁) :
    (calls (exchanged (untilAgent env v pp before p) w)).getLast? =
      some (.done .captured
        (agentCommand pp.settings p v (slotArchive pp.settings.stagingRoot p))) := by
  have hcommand (w : World σ) : Ends (Packaging.untilAgent env pp.settings v before p) w
      fun xs r _ ↦ r = .ok () → (calls xs).getLast? = some (.done .captured
        (agentCommand pp.settings p v (slotArchive pp.settings.stagingRoot p))) := by
    refine Ends.bind (Packaging.accounted_packageEach before w) (by simp) fun xs _ w₂ _ _ ↦ ?_
    refine Ends.bind (Packaging.accounted_handOver fun _ h ↦ h) (by simp) fun ys archive w₃ hw _ ↦ ?_
    obtain rfl := Packaging.archive_of_handOver hw
    refine (Packaging.isCommand_publishAgent env pp.settings v _ p w₃).mono fun zs r _ h hr ↦ ?_
    obtain ⟨a, rfl, -, -, -, ⟨rfl, -⟩ | ⟨-, hfailed⟩⟩ := h
    · simp [Call.done]
    · rw [hr] at hfailed
      cases hfailed
  have hends : Ends (untilAgent env v pp before p) w fun xs r _ ↦ r = .ok () →
      (calls xs).getLast? = some (.done .captured
        (agentCommand pp.settings p v (slotArchive pp.settings.stagingRoot p))) := by
    refine Ends.silent_bind (Silent.report _) (by simp) fun _ w₂ _ ↦ ?_
    refine Ends.silent_bind (plain_announce pp v).silent (by simp) fun _ w₃ _ ↦ ?_
    exact Ends.silent_bind (Packaging.silent_cleanIf _) (by simp) fun _ w₄ _ ↦ hcommand w₄
  exact hends.exchanged (result_of_ok h)

theorem run_of_unattended (hv : Version.parse plan.version = .ok v)
    (h : Unattended env credentials plan v w e) : result (run env credentials plan) w = .error e := by
  obtain ⟨i, hi, hpush, hcheck, ⟨products, image, w₁, hproduce, himage, hfound⟩, hnobody, rfl⟩ := h
  obtain ⟨i', hi', rfl⟩ := image_of_produce hv hproduce himage
  rw [hi] at hi'
  cases hi'
  have hoptions : i.publish = ⟨false, false⟩ := congrArg₂ PublishOptions.mk hpush hcheck
  have hpublish : result (publish env credentials ⟨i.reference v, (i.reference v).latestAlias⟩
      i.publish) w₁ =
        .error (.authenticationRequired (i.reference v).registryHost (i.reference v).text) := by
    have hends := (ends_publish env credentials ⟨i.reference v, (i.reference v).latestAlias⟩
      i.publish w₁).exchanged
    rw [hfound, hnobody, hoptions] at hends
    rw [hoptions]
    generalize exchanged (publish env credentials _ ⟨false, false⟩) w₁ = xs at hends
    generalize result (publish env credentials _ ⟨false, false⟩) w₁ = r at hends ⊢
    cases hends with
    | unreadable h | known h _ => cases h
    | unattended _ _ => rfl
    | declined _ h | refused _ h _ | loggedIn _ h _ => cases h
  have hfinish : run env credentials plan w = .error (.authenticationRequired
      (i.reference v).registryHost (i.reference v).text) (after (publish env credentials
        ⟨i.reference v, (i.reference v).latestAlias⟩ i.publish) w₁) := by
    refine (bind_of_ok hproduce).trans (bind_of_error ?_)
    rw [hi, himage]
    exact bind_of_error (eq_of_result_error hpublish)
  exact result_of_error hfinish

section Verdicts

variable (hv : Version.parse plan.version = .ok v)
include hv

theorem of_verdict (he : e.isVerdict = true) (hr : result (run env credentials plan) w = .error e) :
    (∃ c, (calls (exchanged (run env credentials plan) w)).getLast? = some c ∧
        c.succeeded = false ∧ Verdict plan v c e) ∨
      HandedOn e (exchanged (run env credentials plan) w) ∨
      Unfound env v plan w e ∨ Unattended env credentials plan v w e := by
  obtain ⟨c, hlast, hfailed, hblame⟩ | hplain | hown := (answers_run env credentials hv w).error_cases hr
  · obtain hhanded | hverdict := hblame.verdict he
    · exact .inr (.inl ⟨c, hlast, hhanded⟩)
    · exact .inl ⟨c, hlast, hfailed, hverdict⟩
  · rw [he] at hplain
    cases hplain
  · exact .inr (.inr hown)

theorem error_of_handedOn (h : HandedOn e (exchanged (run env credentials plan) w)) :
    result (run env credentials plan) w = .error e := by
  obtain ⟨c, hlast, hr, hhands⟩ := h
  have hfailed : c.succeeded = false := Call.succeeded_eq_false (by rw [hr]; nofun)
  obtain ⟨-, e', he', hblame⟩ :=
    (answers_run env credentials hv w).of_failed (List.mem_of_getLast? hlast) hfailed
  rw [he', hblame.eq_of_handsOn hhands hr]

theorem verdict_iff (he : e.isRefusal = true) :
    result (run env credentials plan) w = .error e ↔
      (∃ c, (calls (exchanged (run env credentials plan) w)).getLast? = some c ∧
        c.succeeded = false ∧ Verdict plan v c e) ∨
      HandedOn e (exchanged (run env credentials plan) w) := by
  constructor
  · intro hr
    obtain hverdict | hhanded | hunfound | hunattended :=
      of_verdict hv (ReleaseError.isVerdict_of_isRefusal he) hr
    · exact .inl hverdict
    · exact .inr hhanded
    · obtain ⟨_, _, _, _, _, _, _, _, _, rfl⟩ := hunfound
      cases he
    · obtain ⟨_, _, _, _, _, _, rfl⟩ := hunattended
      cases he
  · intro h
    obtain ⟨c, hlast, hfailed, hverdict⟩ | hhanded := h
    · obtain ⟨-, e', hr, hblame⟩ :=
        (answers_run env credentials hv w).of_failed (List.mem_of_getLast? hlast) hfailed
      obtain rfl | ⟨reference, published, _, rfl, -⟩ := hverdict.eq hblame
      · exact hr
      · cases he
    · exact error_of_handedOn hv hhanded

theorem companionBuildFailed_iff (id : String) (code : Option Int) :
    result (run env credentials plan) w = .error (.companionBuildFailed id code) ↔
      (∃ pp p c, plan.package = some pp ∧ p.id = id ∧
        (calls (exchanged (run env credentials plan) w)).getLast? = some c ∧
        c.command = companionCommand pp.settings p v ∧ c.result = .ok ⟨code⟩ ∧ code ≠ some 0) ∨
      HandedOn (.companionBuildFailed id code) (exchanged (run env credentials plan) w) := by
  refine (verdict_iff hv rfl).trans (or_congr_left ⟨fun h ↦ ?_, fun h ↦ ?_⟩)
  · obtain ⟨c, hlast, hfailed, hverdict⟩ := h
    cases hverdict with
    | companion p _ hp hc hr =>
      exact ⟨_, p, c, hp, rfl, hlast, hc, hr, (Call.succeeded_eq_false_iff hr).1 hfailed⟩
  · obtain ⟨pp, p, c, hp, rfl, hlast, hc, hr, hcode⟩ := h
    exact ⟨c, hlast, (Call.succeeded_eq_false_iff hr).2 hcode, .companion p code hp hc hr⟩

theorem agentBuildFailed_iff (id : String) (code : Option Int) :
    result (run env credentials plan) w = .error (.agentBuildFailed id code) ↔
      (∃ pp p c, plan.package = some pp ∧ p.id = id ∧
        (calls (exchanged (run env credentials plan) w)).getLast? = some c ∧
        c.command = agentCommand pp.settings p v (slotArchive pp.settings.stagingRoot p) ∧
        c.result = .ok ⟨code⟩ ∧ code ≠ some 0) ∨
      HandedOn (.agentBuildFailed id code) (exchanged (run env credentials plan) w) := by
  refine (verdict_iff hv rfl).trans (or_congr_left ⟨fun h ↦ ?_, fun h ↦ ?_⟩)
  · obtain ⟨c, hlast, hfailed, hverdict⟩ := h
    cases hverdict with
    | agent p _ hp hc hr =>
      exact ⟨_, p, c, hp, rfl, hlast, hc, hr, (Call.succeeded_eq_false_iff hr).1 hfailed⟩
  · obtain ⟨pp, p, c, hp, rfl, hlast, hc, hr, hcode⟩ := h
    exact ⟨c, hlast, (Call.succeeded_eq_false_iff hr).2 hcode, .agent p code hp hc hr⟩

theorem artifactNotFound_iff (id : String) (path : Path) :
    result (run env credentials plan) w = .error (.artifactNotFound id path) ↔
      (∃ pp before p later w₁, plan.package = some pp ∧
        Platform.resolve pp.selector pp.settings.host = .ok (before ++ p :: later) ∧
        p.id = id ∧ pp.settings.agentBinary p = path ∧
        untilAgent env v pp before p w = .ok () w₁ ∧ w₁.files.isFile path.bytes = false ∧
        (calls (exchanged (run env credentials plan) w)).getLast? = some (.done .captured
          (agentCommand pp.settings p v (slotArchive pp.settings.stagingRoot p)))) ∨
      HandedOn (.artifactNotFound id path) (exchanged (run env credentials plan) w) := by
  constructor
  · intro hr
    obtain ⟨_, _, _, hverdict⟩ | hhanded | hunfound | hunattended := of_verdict hv rfl hr
    · cases hverdict
    · exact .inr hhanded
    · obtain ⟨pp, before, p, later, w₁, hp, hps, huntil, habsent, he⟩ := hunfound
      obtain ⟨rfl, rfl⟩ := ReleaseError.artifactNotFound.inj he
      have hlast := last_of_untilAgent huntil
      have hrun := run_of_unfound credentials hv hp hps huntil habsent
      have hxs : exchanged (run env credentials plan) w =
          exchanged (untilAgent env v pp before p) w := by
        rw [exchanged, exchanged, after_of_error hrun, after_of_ok huntil]
      rw [← hxs] at hlast
      exact .inl ⟨pp, before, p, later, w₁, hp, hps, rfl, rfl, huntil, habsent, hlast⟩
    · obtain ⟨_, _, _, _, _, _, h⟩ := hunattended
      cases h
  · intro h
    obtain ⟨pp, before, p, later, w₁, hp, hps, rfl, rfl, huntil, habsent, -⟩ | hhanded := h
    · exact result_of_error (run_of_unfound credentials hv hp hps huntil habsent)
    · exact error_of_handedOn hv hhanded

theorem imageBuildFailed_iff (image : String) (code : Option Int) :
    result (run env credentials plan) w = .error (.imageBuildFailed image code) ↔
      (∃ i, plan.image = some i ∧ (i.reference v).text = image ∧
        ∃ c ∈ calls (exchanged (run env credentials plan) w),
          c.command = (i.request v).command ∧ c.result = .ok ⟨code⟩ ∧ code ≠ some 0) ∨
      HandedOn (.imageBuildFailed image code) (exchanged (run env credentials plan) w) := by
  refine (verdict_iff hv rfl).trans (or_congr_left ⟨fun h ↦ ?_, fun h ↦ ?_⟩)
  · obtain ⟨c, hlast, hfailed, hverdict⟩ := h
    cases hverdict with
    | image _ hi himage hc hr =>
      exact ⟨_, hi, himage, c, List.mem_of_getLast? hlast, hc, hr,
        (Call.succeeded_eq_false_iff hr).1 hfailed⟩
  · obtain ⟨i, hi, himage, c, hmem, hc, hr, hcode⟩ := h
    have hfailed := (Call.succeeded_eq_false_iff hr).2 hcode
    exact ⟨c, ((answers_run env credentials hv w).of_failed hmem hfailed).1, hfailed,
      .image code hi himage hc hr⟩

theorem loginFailed_iff (registry image : String) :
    result (run env credentials plan) w = .error (.loginFailed registry image) ↔
      (∃ i, plan.image = some i ∧ (i.reference v).registryHost = registry ∧
        (i.reference v).text = image ∧ ∃ c ∈ calls (exchanged (run env credentials plan) w),
          c.command.isDocker "login" = true ∧ c.succeeded = false) ∨
      HandedOn (.loginFailed registry image) (exchanged (run env credentials plan) w) := by
  refine (verdict_iff hv rfl).trans (or_congr_left ⟨fun h ↦ ?_, fun h ↦ ?_⟩)
  · obtain ⟨c, hlast, hfailed, hverdict⟩ := h
    cases hverdict with
    | login hi hregistry himage hlogin =>
      exact ⟨_, hi, hregistry, himage, c, List.mem_of_getLast? hlast, hlogin, hfailed⟩
  · obtain ⟨i, hi, hregistry, himage, c, hmem, hlogin, hfailed⟩ := h
    exact ⟨c, ((answers_run env credentials hv w).of_failed hmem hfailed).1, hfailed,
      .login hi hregistry himage hlogin⟩

theorem authenticationRequired_iff (registry image : String) :
    result (run env credentials plan) w = .error (.authenticationRequired registry image) ↔
      (∃ i, plan.image = some i ∧ (i.reference v).registryHost = registry ∧
        (i.reference v).text = image ∧ i.publish.noPush = false ∧
        i.publish.skipLoginCheck = false ∧ Finds env credentials plan w (.ok false) ∧
        env.interactive = false) ∨
      HandedOn (.authenticationRequired registry image) (exchanged (run env credentials plan) w) := by
  constructor
  · intro hr
    obtain ⟨_, _, _, hverdict⟩ | hhanded | hunfound | hunattended := of_verdict hv rfl hr
    · cases hverdict
    · exact .inr hhanded
    · obtain ⟨_, _, _, _, _, _, _, _, _, h⟩ := hunfound
      cases h
    · obtain ⟨i, hi, hpush, hcheck, hfinds, hnobody, he⟩ := hunattended
      obtain ⟨hregistry, himage⟩ := ReleaseError.authenticationRequired.inj he
      exact .inl ⟨i, hi, hregistry.symm, himage.symm, hpush, hcheck, hfinds, hnobody⟩
  · intro h
    obtain ⟨i, hi, hregistry, himage, hpush, hcheck, hfinds, hnobody⟩ | hhanded := h
    · exact run_of_unattended hv ⟨i, hi, hpush, hcheck, hfinds, hnobody, by rw [hregistry, himage]⟩
    · exact error_of_handedOn hv hhanded

theorem pushFailed_iff (reference : String) :
    (∃ published, result (run env credentials plan) w =
        .error (.pushFailed reference published)) ↔
      (∃ c ∈ calls (exchanged (run env credentials plan) w),
        c.command = pushCommand reference ∧ c.succeeded = false) ∨
      ∃ published, HandedOn (.pushFailed reference published)
        (exchanged (run env credentials plan) w) := by
  constructor
  · intro h
    obtain ⟨published, hr⟩ := h
    obtain ⟨c, hlast, hfailed, hverdict⟩ | hhanded | hunfound | hunattended := of_verdict hv rfl hr
    · cases hverdict with
      | push _ _ hc => exact .inl ⟨c, List.mem_of_getLast? hlast, hc, hfailed⟩
    · exact .inr ⟨published, hhanded⟩
    · obtain ⟨_, _, _, _, _, _, _, _, _, h⟩ := hunfound
      cases h
    · obtain ⟨_, _, _, _, _, _, h⟩ := hunattended
      cases h
  · intro h
    obtain ⟨c, hmem, hc, hfailed⟩ | ⟨published, hhanded⟩ := h
    · obtain ⟨-, e, hr, hblame⟩ := (answers_run env credentials hv w).of_failed hmem hfailed
      obtain ⟨published, rfl⟩ := hblame.of_push hc
      exact ⟨published, hr⟩
    · exact ⟨published, error_of_handedOn hv hhanded⟩

theorem error_of_cause {c : Call} {cause : ReleaseError}
    (hmem : c ∈ calls (exchanged (run env credentials plan) w)) (hcause : c.result = .error cause) :
    (c.command.HandsOn → result (run env credentials plan) w = .error cause) ∧
      (c.command.isDocker "info" = true →
        result (run env credentials plan) w = .error (daemonUnreachable cause)) := by
  have hfailed : c.succeeded = false := Call.succeeded_eq_false (by rw [hcause]; nofun)
  obtain ⟨-, e, hr, hblame⟩ := (answers_run env credentials hv w).of_failed hmem hfailed
  refine ⟨fun hhands ↦ ?_, fun hinfo ↦ ?_⟩
  · rw [← hblame.eq_of_handsOn hhands hcause]
    exact hr
  · rw [hr, hblame.of_info hinfo, hcause]
    rfl

end Verdicts

/-- The error of a run names the step that failed, whatever is planned, and whatever the tools, the
files and the operator do. A verdict on a publish, a build, a login or a push is given exactly when
that command did not succeed; that an executable is missing is said exactly when its publish ended
well and no file is there then; and that the operator would have to log in is said exactly when the
image was built and is to be pushed, no credentials are found, and there is nobody to ask. Besides,
an error that the surroundings came up with for the last command is handed on as it is. -/
theorem error_attribution (env : Surroundings σ) (credentials : Option Path) (plan : Plan)
    (w : World σ) :
    let xs := exchanged (run env credentials plan) w
    let r := result (run env credentials plan) w
    (∀ e, Version.parse plan.version = .error e → r = .error e ∧ e.isVerdict = false ∧ xs = []) ∧
      ∀ v, Version.parse plan.version = .ok v →
        (∀ id code, r = .error (.companionBuildFailed id code) ↔
          (∃ pp p c, plan.package = some pp ∧ p.id = id ∧ (calls xs).getLast? = some c ∧
            c.command = companionCommand pp.settings p v ∧ c.result = .ok ⟨code⟩ ∧
            code ≠ some 0) ∨ HandedOn (.companionBuildFailed id code) xs) ∧
        (∀ id code, r = .error (.agentBuildFailed id code) ↔
          (∃ pp p c, plan.package = some pp ∧ p.id = id ∧ (calls xs).getLast? = some c ∧
            c.command = agentCommand pp.settings p v (slotArchive pp.settings.stagingRoot p) ∧
            c.result = .ok ⟨code⟩ ∧ code ≠ some 0) ∨ HandedOn (.agentBuildFailed id code) xs) ∧
        (∀ id path, r = .error (.artifactNotFound id path) ↔
          (∃ pp before p later w₁, plan.package = some pp ∧
            Platform.resolve pp.selector pp.settings.host = .ok (before ++ p :: later) ∧
            p.id = id ∧ pp.settings.agentBinary p = path ∧
            untilAgent env v pp before p w = .ok () w₁ ∧ w₁.files.isFile path.bytes = false ∧
            (calls xs).getLast? = some (.done .captured
              (agentCommand pp.settings p v (slotArchive pp.settings.stagingRoot p)))) ∨
          HandedOn (.artifactNotFound id path) xs) ∧
        (∀ image code, r = .error (.imageBuildFailed image code) ↔
          (∃ i, plan.image = some i ∧ (i.reference v).text = image ∧ ∃ c ∈ calls xs,
            c.command = (i.request v).command ∧ c.result = .ok ⟨code⟩ ∧ code ≠ some 0) ∨
          HandedOn (.imageBuildFailed image code) xs) ∧
        (∀ registry image, r = .error (.loginFailed registry image) ↔
          (∃ i, plan.image = some i ∧ (i.reference v).registryHost = registry ∧
            (i.reference v).text = image ∧ ∃ c ∈ calls xs, c.command.isDocker "login" = true ∧
            c.succeeded = false) ∨ HandedOn (.loginFailed registry image) xs) ∧
        (∀ registry image, r = .error (.authenticationRequired registry image) ↔
          (∃ i, plan.image = some i ∧ (i.reference v).registryHost = registry ∧
            (i.reference v).text = image ∧ i.publish.noPush = false ∧
            i.publish.skipLoginCheck = false ∧ Finds env credentials plan w (.ok false) ∧
            env.interactive = false) ∨ HandedOn (.authenticationRequired registry image) xs) ∧
        (∀ reference, (∃ published, r = .error (.pushFailed reference published)) ↔
          (∃ c ∈ calls xs, c.command = pushCommand reference ∧ c.succeeded = false) ∨
            ∃ published, HandedOn (.pushFailed reference published) xs) ∧
        (∀ c ∈ calls xs, ∀ cause, c.result = .error cause →
          (c.command.HandsOn → r = .error cause) ∧
            (c.command.isDocker "info" = true → r = .error (daemonUnreachable cause))) ∧
        (∀ c ∈ calls xs, c.succeeded = false → (calls xs).getLast? = some c ∧ r.isOk = false) ∧
        ((∀ c ∈ calls xs, ∀ cause, c.result = .error cause → cause.isVerdict = false) →
          ∀ e : ReleaseError, e.isVerdict = true → ¬HandedOn e xs) := by
  intro xs r
  refine ⟨?_, fun v hv ↦ ?_⟩
  · intro e hv
    have h := turnsAway_version env credentials hv w
    obtain rfl := Version.error_eq hv
    exact ⟨h.result, rfl, h.exchanged⟩
  refine ⟨companionBuildFailed_iff hv, agentBuildFailed_iff hv, artifactNotFound_iff hv,
    imageBuildFailed_iff hv, loginFailed_iff hv, authenticationRequired_iff hv, pushFailed_iff hv,
    fun c hmem cause hcause ↦ error_of_cause hv hmem hcause, ?_, ?_⟩
  · intro c hmem hfailed
    obtain ⟨hlast, e, hr, -⟩ := (answers_run env credentials hv w).of_failed hmem hfailed
    refine ⟨hlast, ?_⟩
    rw [show r = .error e from hr]
    rfl
  · intro hrunner e he hhanded
    obtain ⟨c, hlast, hr, -⟩ := hhanded
    rw [hrunner c (List.mem_of_getLast? hlast) e hr] at he
    cases he

theorem error_attribution_rehearsed :
    let env : Surroundings Unit :=
      ⟨fun _ command fs t ↦ ⟨.ok ⟨some (if command.isDocker "build" then 3 else 0)⟩, [], fs, t, []⟩,
        false, fun _ t ↦ (false, t)⟩
    let i : ImagePlan := ⟨"registry.example.com", "agent", none, ⟨"/Dockerfile"⟩, ⟨"/"⟩,
      "linux/amd64", "Release", false, ⟨false, false⟩, true⟩
    let w : World Unit := ⟨{}, (), []⟩
    result (run env none ⟨"1.2.3", none, some i⟩) w =
        .error (.imageBuildFailed "registry.example.com/agent:1.2.3" (some 3)) ∧
      ∃ c ∈ calls (exchanged (run env none ⟨"1.2.3", none, some i⟩) w),
        c.command = (i.request ⟨"1", "2", "3", none⟩).command ∧ c.result = .ok ⟨some 3⟩ := by
  intro env i w
  have hr : result (run env none ⟨"1.2.3", none, some i⟩) w =
      .error (.imageBuildFailed "registry.example.com/agent:1.2.3" (some 3)) := by
    have he : (match result (run env none ⟨"1.2.3", none, some i⟩) w with
        | .ok _ => none
        | .error e => some e) =
          some (.imageBuildFailed "registry.example.com/agent:1.2.3" (some 3)) := by decide +kernel
    cases h : result (run env none ⟨"1.2.3", none, some i⟩) w with
    | ok outcome =>
      rw [h] at he
      exact absurd he.symm (Option.some_ne_none _)
    | error e =>
      rw [h] at he
      rw [Option.some.inj he]
  have hv : Version.parse "1.2.3" = .ok ⟨"1", "2", "3", none⟩ := rfl
  obtain ⟨-, hverdicts⟩ := error_attribution env none ⟨"1.2.3", none, some i⟩ w
  obtain ⟨-, -, -, hbuild, -⟩ := hverdicts _ hv
  refine ⟨hr, ?_⟩
  obtain ⟨_, hi, -, c, hmem, hc, hcode, -⟩ | ⟨c, hlast, hresult, -⟩ := (hbuild _ _).1 hr
  · rw [← Option.some.inj hi] at hc
    exact ⟨c, hmem, hc, hcode⟩
  · have hended : (calls (exchanged (run env none ⟨"1.2.3", none, some i⟩) w)).all
        (·.result.toOption.isSome) = true := by decide +kernel
    have hok := List.all_eq_true.1 hended c (List.mem_of_getLast? hlast)
    rw [hresult] at hok
    exact absurd hok Bool.false_ne_true

end Pipeline

end ReleaseTrain
