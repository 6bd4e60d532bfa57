import ReleaseTrain.Proofs.Faithful
import ReleaseTrain.Proofs.PackagingFrames
import ReleaseTrain.Proofs.PushAccount

namespace ReleaseTrain

open Session

variable {σ : Type}

def Exchange.question? : Exchange → Option String
  | .asked q _ => some q
  | .call _ => none

/-- The questions that were asked, in their order. -/
def questions (xs : List Exchange) : List String := xs.filterMap Exchange.question?

@[simp] theorem questions_nil : questions [] = [] := rfl

@[simp] theorem questions_append (xs ys : List Exchange) :
    questions (xs ++ ys) = questions xs ++ questions ys := List.filterMap_append

@[simp] theorem questions_asked (q : String) (a : Bool) (xs : List Exchange) :
    questions (.asked q a :: xs) = q :: questions xs := rfl

@[simp] theorem questions_call (c : Call) (xs : List Exchange) :
    questions (.call c :: xs) = questions xs := rfl

@[simp] theorem questions_map_call (cs : List Call) : questions (cs.map .call) = [] := by
  induction cs with
  | nil => rfl
  | cons c cs ih => rw [List.map_cons, questions_call, ih]

theorem mem_questions {q : String} {xs : List Exchange} :
    q ∈ questions xs ↔ ∃ a, .asked q a ∈ xs := by
  induction xs with
  | nil => simp
  | cons x xs ih => cases x <;> simp [ih, exists_or]

theorem eq_of_append_asked {q : String} {a b : Bool} {xs ys pre post : List Exchange}
    (hxs : q ∉ questions xs) (hys : q ∉ questions ys)
    (h : xs ++ .asked q a :: ys = pre ++ .asked q b :: post) : xs = pre ∧ a = b ∧ ys = post := by
  induction xs generalizing pre with
  | nil =>
    cases pre with
    | nil =>
      obtain ⟨hasked, rfl⟩ := List.cons.inj h
      cases hasked
      exact ⟨rfl, rfl, rfl⟩
    | cons x pre =>
      obtain ⟨-, rfl⟩ := List.cons.inj h
      exact absurd (mem_questions.2 ⟨b, by simp⟩) hys
  | cons x xs ih =>
    cases pre with
    | nil =>
      obtain ⟨rfl, -⟩ := List.cons.inj h
      exact absurd List.mem_cons_self hxs
    | cons y pre =>
      obtain ⟨rfl, htail⟩ := List.cons.inj h
      have hxs' : q ∉ questions xs := fun hq ↦ by
        obtain ⟨c, hc⟩ := mem_questions.1 hq
        exact hxs (mem_questions.2 ⟨c, List.mem_cons_of_mem _ hc⟩)
      obtain ⟨rfl, rfl, rfl⟩ := ih hxs' htail
      exact ⟨rfl, rfl, rfl⟩

namespace Publish

variable {interactive : Bool} {found : Except ReleaseError Bool} {image : BuiltImage}
  {options : PublishOptions} {xs : List Exchange} {r : Except ReleaseError PublishOutcome}

theorem Publishing.questions_sublist (h : Publishing interactive found image options xs r) :
    (questions xs).Sublist [loginQuestion image.primary.registryHost] := by
  cases h with
  | skipped _ | unreadable _ | unattended _ _ => exact List.nil_sublist _
  | unchecked _ | known _ _ =>
    rw [questions_map_call]
    exact List.nil_sublist _
  | declined _ _ | refused _ _ _ => exact List.Sublist.refl _
  | loggedIn _ _ _ => simp [questions_asked, questions_call, questions_map_call]

theorem Publishing.isOk_of_no {q : String} (h : Publishing interactive found image options xs r)
    (hno : .asked q false ∈ xs) : r.isOk = true := by
  cases h with
  | skipped _ | unreadable _ | unattended _ _ => cases hno
  | unchecked _ | known _ _ => simp at hno
  | declined _ _ => rfl
  | refused _ _ _ | loggedIn _ _ _ => simp at hno

end Publish

namespace Pipeline

open Image Publish

/-- What a run does before it comes to its image. -/
def prepare (env : Surroundings σ) (version : String) (package : Option PackagePlan) :
    Session σ (Version × Option PackageReport) := do
  let v ← orThrow (Version.parse version)
  report (.verbose s!"Version {v.text} (file version {v.fileVersion})")
  let made ← packagePlanned env v package
  return (v, made)

/-- What a run does once a build is agreed to. -/
def proceed (env : Surroundings σ) (credentials : Option Path) (i : ImagePlan) (v : Version) :
    Session σ ImageStage := do
  checkDaemon env
  let image ← build env (i.request v)
  report (.heading "Publishing")
  let outcome ← publish env credentials image i.publish
  return .built image outcome

theorem run_eq (env : Surroundings σ) (credentials : Option Path) (version : String)
    (package : Option PackagePlan) (i : ImagePlan) :
    run env credentials ⟨version, package, some i⟩ = (do
      let (v, made) ← prepare env version package
      reportAll (i.overview v)
      if ← confirmBuild env i.assumeYes then
        (fun stage ↦ ⟨v, made, stage⟩) <$> proceed env credentials i v
      else
        sayCancelled env
        return ⟨v, made, .cancelled⟩) := by
  unfold run produce prepare buildPlanned buildImage proceed
  simp only [bind_assoc, pure_bind]
  refine bind_congr fun v ↦ bind_congr fun _ ↦ bind_congr fun made ↦ bind_congr fun _ ↦
    bind_congr fun agreed ↦ ?_
  cases agreed with
  | true =>
    simp only [if_true, bind_assoc, pure_bind, finish, map_eq_pure_bind]
  | false =>
    simp [finish]

theorem ends_prepare (env : Surroundings σ) (version : String) (package : Option PackagePlan)
    (w : World σ) : Ends (prepare env version package) w fun xs _ _ ↦
      ∃ cs : List Call, xs = cs.map .call ∧ ∀ c ∈ cs, c.command.program ≠ "docker" := by
  unfold prepare
  refine Ends.silent_bind (Silent.orThrow _) (fun _ _ _ ↦ ⟨[], rfl, by simp⟩) fun v w₁ _ ↦ ?_
  have hpackage : CarriesOut (do
      let made ← packagePlanned env v package
      return (v, made) : Session σ (Version × Option PackageReport))
      (Plan.packagingSteps ⟨version, package, none⟩ v ++ []) fun _ ↦ True :=
    (carriesOut_packagePlanned env v ⟨version, package, none⟩).bind fun _ _ ↦ .pure trivial
  refine Ends.report_bind ((hpackage _).mono fun xs r w' h ↦ ?_)
  obtain ⟨cs, rfl, hcs, -⟩ := h
  rw [List.append_nil] at hcs
  exact ⟨cs, rfl, fun c hc ↦ Plan.program_of_mem_packagingSteps (hcs.order_mem hc)⟩

theorem faithful_proceed (env : Surroundings σ) (credentials : Option Path) (i : ImagePlan)
    (v : Version) : Faithful env (proceed env credentials i v) :=
  (faithful_checkDaemon env).bind fun _ ↦ (faithful_build env _).bind fun image ↦
    (Faithful.report _).bind fun _ ↦ (faithful_publish env image credentials i.publish).bind
      fun _ ↦ .pure _

theorem ends_proceed (env : Surroundings σ) (credentials : Option Path) (i : ImagePlan)
    (v : Version) (w : World σ) : Ends (proceed env credentials i v) w fun xs r _ ↦
      (questions xs).Sublist [loginQuestion (i.reference v).registryHost] ∧
        ∀ q, .asked q false ∈ xs → r.isOk = true := by
  unfold proceed
  rw [← bind_assoc]
  refine (ends_build env (i.request v) w).bind ?_ ?_
  · intro xs e w' _ h
    obtain ⟨ds, rfl, -⟩ := h
    simp
  intro xs image w₁ _ h
  obtain ⟨ds, rfl, hds⟩ := h
  have himage := hds.image_eq
  subst himage
  refine Ends.report_bind ((ends_publish env credentials _ i.publish _).bind ?_ ?_)
  · intro ys e w' _ hys
    rw [questions_append, questions_map_call, List.nil_append]
    refine ⟨hys.questions_sublist, fun q hno ↦ ?_⟩
    exact hys.isOk_of_no ((List.mem_append.1 hno).resolve_left (by simp))
  · intro ys outcome w' _ hys
    refine Ends.pure ⟨?_, fun _ _ ↦ rfl⟩
    rw [List.append_nil, questions_append, questions_map_call, List.nil_append]
    exact hys.questions_sublist

/-- The ways that a run with an image planned can go: it is not prepared, the operator declines the
build, or the run proceeds with it. -/
inductive Gated (env : Surroundings σ) (credentials : Option Path) (version : String)
    (package : Option PackagePlan) (i : ImagePlan) (w : World σ) :
    List Exchange → Except ReleaseError RunOutcome → World σ → Prop
  | unprepared {e : ReleaseError} {w₁ : World σ} :
      prepare env version package w = .error e w₁ →
      Gated env credentials version package i w (exchanged (prepare env version package) w)
        (.error e) w₁
  | declined {v : Version} {made : Option PackageReport} {w₁ w₂ : World σ} :
      prepare env version package w = .ok (v, made) w₁ → i.assumeYes = false →
      (env.answer buildQuestion w₁.tools).1 = false → w₂.files = w₁.files →
      Gated env credentials version package i w
        (exchanged (prepare env version package) w ++ [.asked buildQuestion false])
        (.ok ⟨v, made, .cancelled⟩) w₂
  | agreed {v : Version} {made : Option PackageReport} {w₁ w₂ : World σ}
      {consent : List Exchange} :
      prepare env version package w = .ok (v, made) w₁ → Agreed i.assumeYes consent →
      (i.assumeYes = true ∧ w₂.tools = w₁.tools ∨
        i.assumeYes = false ∧ env.answer buildQuestion w₁.tools = (true, w₂.tools)) →
      w₂.files = w₁.files →
      Gated env credentials version package i w
        (exchanged (prepare env version package) w ++
          (consent ++ exchanged (proceed env credentials i v) w₂))
        ((result (proceed env credentials i v) w₂).map fun stage ↦ ⟨v, made, stage⟩)
        (after (proceed env credentials i v) w₂)

theorem files_sayCancelled (env : Surroundings σ) (w : World σ) :
    (after (sayCancelled env) w).files = w.files := by
  unfold sayCancelled
  cases env.interactive <;> rfl

theorem ends_run_gated (env : Surroundings σ) (credentials : Option Path) (version : String)
    (package : Option PackagePlan) (i : ImagePlan) (w : World σ) :
    Ends (run env credentials ⟨version, package, some i⟩) w
      (Gated env credentials version package i w) := by
  rw [run_eq]
  refine (ends_prepare env version package w).self.bind ?_ ?_
  · intro xs e w₁ hw h
    rw [h.1]
    exact .unprepared hw
  intro xs vm w₁ hw h
  obtain ⟨v, made⟩ := vm
  rw [h.1]
  refine Ends.silent_bind (Silent.record_reported _) (fun e w' hw' ↦ by cases hw') ?_
  intro u w₁' hw'
  cases hw'
  -- Whichever way the build comes to be agreed to, the rest of the run is the same.
  have hagreed {consent : List Exchange} {w₂ : World σ} (hconsent : Agreed i.assumeYes consent)
      (htools : i.assumeYes = true ∧ w₂.tools = w₁.tools ∨
        i.assumeYes = false ∧ env.answer buildQuestion w₁.tools = (true, w₂.tools))
      (hfiles : w₂.files = w₁.files) :
      Ends ((fun stage ↦ (⟨v, made, stage⟩ : RunOutcome)) <$> proceed env credentials i v) w₂
        fun ys r w' ↦ Gated env credentials version package i w
          (exchanged (prepare env version package) w ++ (consent ++ ys)) r w' := by
    refine Ends.map ((ends_proceed env credentials i v w₂).self.mono fun ys r w' h ↦ ?_)
    obtain ⟨rfl, rfl, rfl, -⟩ := h
    exact .agreed hw hconsent htools hfiles
  cases hyes : i.assumeYes with
  | true =>
    rw [hyes] at hagreed
    exact hagreed .beforehand (.inl ⟨rfl, rfl⟩) rfl
  | false =>
    rw [hyes] at hagreed
    refine (Ends.confirm env buildQuestion _).bind (fun xs e w' hw' ↦ by cases hw') ?_
    intro xs answer w₂ hw₂ h
    obtain ⟨a, rfl, ha⟩ := h
    obtain ⟨rfl, rfl⟩ := EStateM.Result.ok.inj hw₂
    cases ha
    cases hanswer : (env.answer buildQuestion w₁.tools).1 with
    | true => exact hagreed .asked (.inr ⟨rfl, Prod.ext hanswer rfl⟩) rfl
    | false =>
      refine (ends_sayCancelled env _).self.bind ?_ ?_
      · intro ys e w' _ h
        obtain ⟨-, -, -, -, hr⟩ := h
        cases hr
      · intro ys u w' _ h
        obtain ⟨-, -, rfl, rfl, -⟩ := h
        exact Ends.pure (.declined hw hyes hanswer (files_sayCancelled env _))

section Gated

variable {env : Surroundings σ} {credentials : Option Path} {version : String}
  {package : Option PackagePlan} {i : ImagePlan} {w w' : World σ} {xs : List Exchange}
  {r : Except ReleaseError RunOutcome}

theorem Agreed.eq {assumeYes : Bool} {consent : List Exchange} (h : Agreed assumeYes consent) :
    assumeYes = true ∧ consent = [] ∨
      assumeYes = false ∧ consent = [.asked buildQuestion true] := by
  cases h with
  | beforehand => exact .inl ⟨rfl, rfl⟩
  | asked => exact .inr ⟨rfl, rfl⟩

theorem exchanged_prepare (env : Surroundings σ) (version : String) (package : Option PackagePlan)
    (w : World σ) : ∃ cs : List Call, exchanged (prepare env version package) w = cs.map .call ∧
      ∀ c ∈ cs, c.command.program ≠ "docker" := (ends_prepare env version package w).exchanged

theorem Gated.eachCall (h : Gated env credentials version package i w xs r w') :
    EachCall (fun pre c ↦ c.command.program = "docker" →
      i.assumeYes = true ∨ .asked buildQuestion true ∈ pre) xs := by
  obtain ⟨cs, hxs, hcs⟩ := exchanged_prepare env version package w
  have hprepare : EachCall (fun pre c ↦ c.command.program = "docker" →
      i.assumeYes = true ∨ .asked buildQuestion true ∈ pre) (cs.map .call) := by
    refine .of_mem fun c hc pre hdocker ↦ ?_
    rw [calls_map_call] at hc
    exact absurd hdocker (hcs c hc)
  cases h with
  | unprepared _ => exact hxs ▸ hprepare
  | declined _ _ _ _ => exact hxs ▸ hprepare.append (.asked .nil)
  | agreed _ hconsent _ _ =>
    rw [hxs]
    obtain ⟨hyes, rfl⟩ | ⟨-, rfl⟩ := hconsent.eq
    · exact .of_mem fun _ _ _ _ ↦ .inl hyes
    · refine hprepare.append (.asked (.of_mem fun c _ pre _ ↦ .inr ?_))
      exact List.mem_append_right _ List.mem_cons_self

theorem questions_proceed (env : Surroundings σ) (credentials : Option Path) (i : ImagePlan)
    (v : Version) (w : World σ) :
    (questions (exchanged (proceed env credentials i v) w)).Sublist
      [loginQuestion (i.reference v).registryHost] :=
  (ends_proceed env credentials i v w).exchanged.1

theorem buildQuestion_notMem_proceed (env : Surroundings σ) (credentials : Option Path)
    (i : ImagePlan) (v : Version) (w : World σ) :
    buildQuestion ∉ questions (exchanged (proceed env credentials i v) w) := by
  intro h
  have hlogin := List.mem_singleton.1 ((questions_proceed env credentials i v w).subset h)
  exact loginQuestion_ne_buildQuestion _ hlogin.symm

/-- The build is asked about when a run is prepared that was not told beforehand, and at no other
time. -/
theorem Gated.question (h : Gated env credentials version package i w xs r w') :
    (i.assumeYes = true ∨ (result (prepare env version package) w).isOk = false) ∧
        buildQuestion ∉ questions xs ∨
      i.assumeYes = false ∧ ∃ vm w₁ ys, prepare env version package w = .ok vm w₁ ∧
        xs = exchanged (prepare env version package) w ++
          .asked buildQuestion (env.answer buildQuestion w₁.tools).1 :: ys ∧
        buildQuestion ∉ questions ys := by
  obtain ⟨cs, hxs, -⟩ := exchanged_prepare env version package w
  cases h with
  | unprepared hw =>
    rw [hxs, result_of_error hw]
    exact .inl ⟨.inr rfl, by simp⟩
  | declined hw hyes hanswer _ =>
    exact .inr ⟨hyes, _, _, [], hw, by rw [hanswer], by simp⟩
  | @agreed v made w₁ w₂ consent hw hconsent htools _ =>
    have hlater := buildQuestion_notMem_proceed env credentials i v w₂
    obtain ⟨hyes, rfl⟩ | ⟨hyes, rfl⟩ := hconsent.eq
    · rw [hxs, questions_append, questions_map_call]
      exact .inl ⟨.inl hyes, by simpa using hlater⟩
    · obtain ⟨hyes', -⟩ | ⟨-, hanswer⟩ := htools
      · exact absurd hyes' (Bool.eq_false_iff.1 hyes)
      · exact .inr ⟨hyes, _, _, _, hw, by rw [hanswer]; rfl, hlater⟩

theorem Gated.questions_sublist (h : Gated env credentials version package i w xs r w')
    (v : Version) :
    (questions xs).Sublist [buildQuestion, loginQuestion (i.reference v).registryHost] := by
  obtain ⟨cs, hxs, -⟩ := exchanged_prepare env version package w
  cases h with
  | unprepared _ =>
    rw [hxs, questions_map_call]
    exact List.nil_sublist _
  | declined _ _ _ _ =>
    rw [hxs, questions_append, questions_map_call]
    exact (List.nil_sublist _).cons_cons _
  | @agreed v' made w₁ w₂ consent _ hconsent _ _ =>
    -- The registry, and with it the host, is the plan's whatever the version is.
    have hlogin : (questions (exchanged (proceed env credentials i v') w₂)).Sublist
        [loginQuestion (i.reference v).registryHost] := questions_proceed env credentials i v' w₂
    rw [hxs, questions_append, questions_append, questions_map_call, List.nil_append]
    obtain ⟨-, rfl⟩ | ⟨-, rfl⟩ := hconsent.eq
    · exact hlogin.cons _
    · exact hlogin.cons_cons _

theorem Gated.isOk_of_no (h : Gated env credentials version package i w xs r w') {q : String}
    (hno : .asked q false ∈ xs) : r.isOk = true := by
  obtain ⟨cs, hxs, -⟩ := exchanged_prepare env version package w
  cases h with
  | unprepared _ =>
    rw [hxs] at hno
    simp at hno
  | declined _ _ _ _ => rfl
  | @agreed v made w₁ w₂ consent _ hconsent _ _ =>
    have hlater : .asked q false ∈ exchanged (proceed env credentials i v) w₂ := by
      rw [hxs] at hno
      obtain ⟨-, rfl⟩ | ⟨-, rfl⟩ := hconsent.eq
      · simpa using hno
      · simpa using hno
    have hok := (ends_proceed env credentials i v w₂).exchanged.2 q hlater
    cases hr : result (proceed env credentials i v) w₂ with
    | ok stage => rfl
    | error e =>
      rw [hr] at hok
      cases hok

theorem Gated.answer (h : Gated env credentials version package i w xs r w') {q : String}
    {a : Bool} (ha : .asked q a ∈ xs) : ∃ t, (env.answer q t).1 = a := by
  obtain ⟨cs, hxs, -⟩ := exchanged_prepare env version package w
  cases h with
  | unprepared _ =>
    rw [hxs] at ha
    simp at ha
  | declined _ _ hanswer _ =>
    rw [hxs] at ha
    obtain ⟨rfl, rfl⟩ : q = buildQuestion ∧ a = false := by simpa using ha
    exact ⟨_, hanswer⟩
  | @agreed v made w₁ w₂ consent _ hconsent htools _ =>
    rw [hxs, List.mem_append, List.mem_append] at ha
    obtain ha | ha | ha := ha
    · simp at ha
    · obtain ⟨-, rfl⟩ | ⟨hyes, rfl⟩ := hconsent.eq
      · cases ha
      obtain ⟨rfl, rfl⟩ : q = buildQuestion ∧ a = true := by simpa using ha
      obtain ⟨hyes', -⟩ | ⟨-, hanswer⟩ := htools
      · exact absurd hyes' (Bool.eq_false_iff.1 hyes)
      · exact ⟨w₁.tools, by rw [hanswer]⟩
    · exact (faithful_proceed env credentials i v).exchanged_answer ha

theorem Gated.of_unattended (h : Gated env credentials version package i w xs r w')
    (hno : ∀ q t, (env.answer q t).1 = false) (hyes : i.assumeYes = false) {v : Version}
    {made : Option PackageReport} {w₁ : World σ}
    (hw : prepare env version package w = .ok (v, made) w₁) :
    r = .ok ⟨v, made, .cancelled⟩ ∧ w'.files = w₁.files ∧
      ∀ c ∈ calls xs, c.command.program ≠ "docker" := by
  obtain ⟨cs, hxs, hcs⟩ := exchanged_prepare env version package w
  cases h with
  | unprepared hw' =>
    rw [hw] at hw'
    cases hw'
  | declined hw' _ _ hfiles =>
    rw [hw] at hw'
    cases hw'
    refine ⟨rfl, hfiles, ?_⟩
    rw [hxs, calls_append, calls_map_call]
    simpa using hcs
  | @agreed v' made' w₁' w₂ consent _ _ htools _ =>
    obtain ⟨hyes', -⟩ | ⟨-, hanswer⟩ := htools
    · exact absurd hyes' (Bool.eq_false_iff.1 hyes)
    · have hfalse := hno buildQuestion w₁'.tools
      rw [hanswer] at hfalse
      cases hfalse

theorem Gated.of_yes (h : Gated env credentials version package i w xs r w') {v : Version}
    {made : Option PackageReport} {w₁ : World σ}
    (hw : prepare env version package w = .ok (v, made) w₁)
    (hanswer : env.answer buildQuestion w₁.tools = (true, w₁.tools)) :
    ∃ consent, Agreed i.assumeYes consent ∧
      xs = exchanged (prepare env version package) w ++
        (consent ++ exchanged (proceed env credentials i v) w₁) ∧
      r = (result (proceed env credentials i v) w₁).map (fun stage ↦ ⟨v, made, stage⟩) ∧
      w'.files = (after (proceed env credentials i v) w₁).files := by
  cases h with
  | unprepared hw' =>
    rw [hw] at hw'
    cases hw'
  | declined hw' _ hno _ =>
    rw [hw] at hw'
    cases hw'
    rw [hanswer] at hno
    cases hno
  | @agreed v' made' w₁' w₂ consent hw' hconsent htools hfiles =>
    rw [hw] at hw'
    cases hw'
    have htools : w₂.tools = w₁.tools := by
      obtain ⟨-, htools⟩ | ⟨-, hasked⟩ := htools
      · exact htools
      · rw [hanswer] at hasked
        exact (congrArg Prod.snd hasked).symm
    obtain ⟨hr, hxs, hafter⟩ := (faithful_proceed env credentials i v).agree hfiles htools
    exact ⟨consent, hconsent, by rw [hxs], by rw [hr], hafter⟩

theorem Gated.count_question (h : Gated env credentials version package i w xs r w') :
    (questions xs).count buildQuestion =
      if i.assumeYes = false ∧ (result (prepare env version package) w).isOk = true then 1
      else 0 := by
  obtain ⟨cs, hprepare, -⟩ := exchanged_prepare env version package w
  obtain ⟨hwhy, hnone⟩ | ⟨hyes, vm, w₁, ys, hw, rfl, hys⟩ := h.question
  · rw [List.count_eq_zero_of_not_mem hnone, if_neg]
    intro h
    obtain ⟨hyes, hok⟩ := h
    rw [hyes, hok] at hwhy
    simp at hwhy
  · rw [result_of_ok hw, if_pos ⟨hyes, rfl⟩, hprepare, questions_append, questions_map_call,
      questions_asked, List.nil_append, List.count_cons_self, List.count_eq_zero_of_not_mem hys]

theorem Gated.of_question (h : Gated env credentials version package i w xs r w')
    {pre post : List Exchange} {a : Bool} (hxs : xs = pre ++ .asked buildQuestion a :: post) :
    i.assumeYes = false ∧ ∃ vm w₁, prepare env version package w = .ok vm w₁ ∧
      pre = exchanged (prepare env version package) w ∧
      a = (env.answer buildQuestion w₁.tools).1 := by
  obtain ⟨cs, hprepare, -⟩ := exchanged_prepare env version package w
  obtain ⟨-, hnone⟩ | ⟨hyes, vm, w₁, ys, hw, hsplit, hys⟩ := h.question
  · exact absurd (mem_questions.2 ⟨a, by simp [hxs]⟩) hnone
  · have hpre : buildQuestion ∉ questions (exchanged (prepare env version package) w) := by
      simp [hprepare]
    obtain ⟨rfl, rfl, -⟩ := eq_of_append_asked hpre hys (hsplit.symm.trans hxs)
    exact ⟨hyes, vm, w₁, hw, rfl, rfl⟩

theorem marker_of_prepare {p : PackagePlan} {v : Version} {made : Option PackageReport}
    {w₁ : World σ} (h : prepare env version (some p) w = .ok (v, made) w₁) :
    FileSystem.content p.settings.versionMarker.bytes w₁.files =
      .ok (.bytes (Text.encode v.text)) w₁.files := by
  obtain ⟨v', w₂, -, h⟩ := bind_eq_ok.1 h
  obtain ⟨_, w₃, -, h⟩ := bind_eq_ok.1 h
  obtain ⟨made', w₄, hmade, h⟩ := bind_eq_ok.1 h
  cases h
  have hmade : (some <$> runPackage env p v) w₃ = .ok made w₁ := hmade
  rw [map_eq_pure_bind] at hmade
  obtain ⟨report, w₅, hrun, h⟩ := bind_eq_ok.1 hmade
  cases h
  obtain ⟨ps, w₆, -, hrun⟩ := bind_eq_ok.1 hrun
  obtain ⟨_, w₇, -, hrun⟩ := bind_eq_ok.1 hrun
  obtain ⟨_, w₈, -, hrun⟩ := bind_eq_ok.1 hrun
  exact (Packaging.marker_of_package hrun).2

end Gated

/-- Whatever the tools, the files and the operator do, the container tool is used only after the
build was agreed to, beforehand or in answer to the one question that is put when the run is
prepared. Where nobody answers with a yes the run ends well with what was prepared in place. Each
word given beforehand settles its own question only: a build that was agreed to goes on in the same
way however that came about, and the build is asked about whatever is to be pushed. -/
theorem build_confirmation (env : Surroundings σ) (credentials : Option Path) (version : String)
    (package : Option PackagePlan) (i : ImagePlan) (w : World σ) :
    let plan (i : ImagePlan) : Plan := ⟨version, package, some i⟩
    let made := prepare env version package
    let xs := exchanged (run env credentials (plan i)) w
    let r := result (run env credentials (plan i)) w
    EachCall (fun pre c ↦ c.command.program = "docker" →
        i.assumeYes = true ∨ .asked buildQuestion true ∈ pre) xs ∧
      ((questions xs).count buildQuestion =
        if i.assumeYes = false ∧ (result made w).isOk = true then 1 else 0) ∧
      (∀ pre a post, xs = pre ++ .asked buildQuestion a :: post →
        (∃ vm w₁, made w = .ok vm w₁ ∧ pre = exchanged made w ∧
          a = (env.answer buildQuestion w₁.tools).1) ∧
        ∀ options, ∃ post', exchanged (run env credentials (plan { i with publish := options })) w =
          pre ++ .asked buildQuestion a :: post') ∧
      ((∀ q t, (env.answer q t).1 = false) → i.assumeYes = false →
        ∀ v report w₁, made w = .ok (v, report) w₁ →
          r = .ok ⟨v, report, .cancelled⟩ ∧ (∀ c ∈ calls xs, c.command.program ≠ "docker") ∧
            (after (run env credentials (plan i)) w).files = w₁.files ∧
            ∀ p, package = some p → FileSystem.content p.settings.versionMarker.bytes w₁.files =
              .ok (.bytes (Text.encode v.text)) w₁.files) ∧
      (∀ v, Version.parse version = .ok v →
        ((answerTo? (loginQuestion (i.reference v).registryHost) xs).isSome = true ↔
          LoginNeeded env credentials (plan i) i w)) ∧
      (∀ q a, .asked q a ∈ xs → ∃ t, (env.answer q t).1 = a) ∧
      (∀ v report w₁, made w = .ok (v, report) w₁ →
        env.answer buildQuestion w₁.tools = (true, w₁.tools) →
        let asking := run env credentials (plan { i with assumeYes := false })
        let told := run env credentials (plan { i with assumeYes := true })
        result asking w = result told w ∧ (after asking w).files = (after told w).files ∧
          ∃ ys, exchanged told w = exchanged made w ++ ys ∧
            exchanged asking w = exchanged made w ++ .asked buildQuestion true :: ys) ∧
      (∀ v, (questions xs).Sublist [buildQuestion, loginQuestion (i.reference v).registryHost]) ∧
      ∀ q, .asked q false ∈ xs → r.isOk = true := by
  intro plan made xs r
  have hgated (j : ImagePlan) := (ends_run_gated env credentials version package j w).exchanged
  refine ⟨(hgated i).eachCall, (hgated i).count_question, ?_, ?_, ?_, ?_, ?_,
    (hgated i).questions_sublist, fun q ↦ (hgated i).isOk_of_no⟩
  · intro pre a post hxs
    obtain ⟨hyes, vm, w₁, hw, hpre, ha⟩ := (hgated i).of_question hxs
    refine ⟨⟨vm, w₁, hw, hpre, ha⟩, fun options ↦ ?_⟩
    obtain ⟨hwhy, -⟩ | ⟨-, vm', w₁', ys, hw', hsplit, -⟩ :=
      (hgated { i with publish := options }).question
    · rw [result_of_ok hw] at hwhy
      simp [hyes, Except.isOk, Except.toBool] at hwhy
    · rw [hw] at hw'
      cases hw'
      exact ⟨ys, by rw [hpre, ha]; exact hsplit⟩
  · intro hno hyes v report w₁ hw
    obtain ⟨hr, hfiles, hcalls⟩ := (hgated i).of_unattended hno hyes hw
    refine ⟨hr, hcalls, hfiles, fun p hp ↦ ?_⟩
    subst hp
    exact marker_of_prepare hw
  · intro v hv
    exact (course_run env credentials (plan i) w).asked_iff rfl hv
  · intro q a
    exact (hgated i).answer
  · intro v report w₁ hw hanswer
    obtain ⟨consent, hasked, hxs, hr, hfiles⟩ :=
      (hgated { i with assumeYes := false }).of_yes hw hanswer
    obtain ⟨consent', htold, hxs', hr', hfiles'⟩ :=
      (hgated { i with assumeYes := true }).of_yes hw hanswer
    cases hasked
    cases htold
    exact ⟨hr.trans hr'.symm, hfiles.trans hfiles'.symm, _, hxs', hxs⟩

theorem build_confirmation_rehearsed :
    let env := Rehearsal.surroundings [] false
    let plan : Plan := ⟨"1.2.3", none, some ⟨"registry.example.com", "agent", none, ⟨"/Dockerfile"⟩,
      ⟨"/"⟩, "linux/amd64", "Release", false, ⟨false, false⟩, false⟩⟩
    let w : World Rehearsal.State := ⟨{}, {}, []⟩
    result (run env none plan) w = .ok ⟨⟨"1", "2", "3", none⟩, none, .cancelled⟩ ∧
      ∀ c ∈ calls (exchanged (run env none plan) w), c.command.program ≠ "docker" := by
  intro env plan w
  have hv : Version.parse "1.2.3" = .ok ⟨"1", "2", "3", none⟩ := rfl
  have hw : ∃ w₁, prepare env "1.2.3" none w = .ok (⟨"1", "2", "3", none⟩, none) w₁ := by
    unfold prepare
    rw [hv]
    exact ⟨_, rfl⟩
  obtain ⟨w₁, hw⟩ := hw
  obtain ⟨-, -, -, hno, -⟩ := build_confirmation env none "1.2.3" none
    ⟨"registry.example.com", "agent", none, ⟨"/Dockerfile"⟩, ⟨"/"⟩, "linux/amd64", "Release", false,
      ⟨false, false⟩, false⟩ w
  obtain ⟨hr, hcalls, -⟩ := hno (fun _ _ ↦ rfl) rfl _ _ _ hw
  exact ⟨hr, hcalls⟩

end Pipeline

end ReleaseTrain
