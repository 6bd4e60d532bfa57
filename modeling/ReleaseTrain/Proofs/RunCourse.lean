import ReleaseTrain.Pipeline
import ReleaseTrain.Proofs.ImageCourse
import ReleaseTrain.Proofs.PackagingSteps

namespace ReleaseTrain

open Session

variable {σ : Type}

def PackagePlan.steps (plan : PackagePlan) (v : Version) : List (Mode × Invocation) :=
  match Platform.resolve plan.selector plan.settings.host with
  | .ok ps => ps.flatMap (Packaging.steps plan.settings v)
  | .error _ => []

def Plan.packagingSteps (plan : Plan) (v : Version) : List (Mode × Invocation) :=
  (plan.package.map fun p ↦ p.steps v).getD []

namespace Pipeline

open Image Publish

inductive Agreed : Bool → List Exchange → Prop
  | beforehand : Agreed true []
  | asked : Agreed false [.asked buildQuestion true]

/-- The courses of a run up to publishing. -/
inductive Producing (plan : Plan) : List Exchange → Except ReleaseError Products → Prop
  | refused {e : ReleaseError} : Version.parse plan.version = .error e →
      Producing plan [] (.error e)
  | unpackaged {v : Version} {cs : List Call} {e : ReleaseError} :
      Version.parse plan.version = .ok v → InTurn (plan.packagingSteps v) cs false →
      Producing plan (cs.map .call) (.error e)
  | imageless {v : Version} {cs : List Call} {package : Option PackageReport} :
      Version.parse plan.version = .ok v → InTurn (plan.packagingSteps v) cs true →
      plan.image = none → Producing plan (cs.map .call) (.ok ⟨v, package, none⟩)
  | cancelled {v : Version} {cs : List Call} {package : Option PackageReport} {i : ImagePlan} :
      Version.parse plan.version = .ok v → InTurn (plan.packagingSteps v) cs true →
      plan.image = some i → i.assumeYes = false →
      Producing plan (cs.map .call ++ [.asked buildQuestion false]) (.ok ⟨v, package, none⟩)
  | agreed {v : Version} {cs ds : List Call} (package : Option PackageReport) {i : ImagePlan}
      {consent : List Exchange} {r : Except ReleaseError BuiltImage} :
      Version.parse plan.version = .ok v → InTurn (plan.packagingSteps v) cs true →
      plan.image = some i → Agreed i.assumeYes consent → Building (i.request v) ds r →
      Producing plan (cs.map .call ++ (consent ++ ds.map .call))
        (r.map fun image ↦ ⟨v, package, some image⟩)

theorem carriesOut_runPackage (env : Surroundings σ) (plan : PackagePlan) (v : Version) :
    CarriesOut (runPackage env plan v) (plan.steps v) fun _ ↦ True := by
  have hreports (reports : List Report) : Silent (reportAll reports : Session σ Unit) :=
    Silent.record_reported reports
  unfold runPackage PackagePlan.steps
  dsimp only
  cases hps : Platform.resolve plan.selector plan.settings.host with
  | error e =>
    have hnone : CarriesOut (orThrow (.error e) : Session σ (List Platform)) [] fun _ ↦ False :=
      .silent (Silent.orThrow _) fun w a w' hw ↦ by cases hw
    exact hnone.bind fun _ h ↦ h.elim
  | ok ps =>
    have hsome : CarriesOut (orThrow (.ok ps) : Session σ (List Platform)) [] (· = ps) :=
      .silent (Silent.orThrow _) fun w a w' hw ↦ by cases hw; rfl
    refine hsome.bind ?_
    intro _ h
    subst h
    exact .silent_bind (hreports _) fun _ ↦ .silent_bind (hreports _) fun _ ↦
      Packaging.carriesOut_package env plan.settings _ v

theorem carriesOut_packagePlanned (env : Surroundings σ) (v : Version) (plan : Plan) :
    CarriesOut (packagePlanned env v plan.package) (plan.packagingSteps v) fun _ ↦ True := by
  unfold Plan.packagingSteps
  cases plan.package with
  | none => exact .pure trivial
  | some p =>
    intro w
    refine Ends.map ((carriesOut_runPackage env p v w).mono ?_)
    intro xs r w' h
    obtain ⟨cs, hxs, hcs, -⟩ := h
    refine ⟨cs, hxs, ?_, fun _ _ ↦ trivial⟩
    cases r <;> exact hcs

theorem ends_confirmBuild (env : Surroundings σ) (assumeYes : Bool) (w : World σ) :
    Ends (confirmBuild env assumeYes) w fun xs r _ ↦
      Agreed assumeYes xs ∧ r = .ok true ∨
      assumeYes = false ∧ xs = [.asked buildQuestion false] ∧ r = .ok false := by
  cases assumeYes with
  | true => exact Ends.pure (.inl ⟨.beforehand, rfl⟩)
  | false =>
    refine (Ends.confirm env buildQuestion w).mono ?_
    intro xs r w' h
    obtain ⟨answer, rfl, rfl⟩ := h
    cases answer with
    | true => exact .inl ⟨.asked, rfl⟩
    | false => exact .inr ⟨rfl, rfl, rfl⟩

theorem ends_sayCancelled (env : Surroundings σ) (w : World σ) :
    Ends (sayCancelled env) w fun xs r _ ↦ xs = [] ∧ r = .ok () := by
  unfold sayCancelled
  cases env.interactive with
  | true => exact Ends.report ⟨rfl, rfl⟩
  | false => exact Ends.report_bind (Ends.report ⟨rfl, rfl⟩)

theorem ends_buildImage (env : Surroundings σ) (i : ImagePlan) (v : Version) (w : World σ) :
    Ends (buildImage env i v) w fun xs r _ ↦
      i.assumeYes = false ∧ xs = [.asked buildQuestion false] ∧ r = .ok none ∨
      ∃ consent ds s, Agreed i.assumeYes consent ∧ Building (i.request v) ds s ∧
        xs = consent ++ ds.map .call ∧ r = s.map some := by
  refine Ends.silent_bind (Silent.record_reported _) ?_ ?_
  · intro e w' hw
    cases hw
  intro u w₁ _
  refine (ends_confirmBuild env i.assumeYes w₁).bind ?_ ?_
  · intro xs e w' _ h
    rcases h with ⟨-, hr⟩ | ⟨-, -, hr⟩ <;> cases hr
  intro consent answer w₂ _ h
  rcases h with ⟨hagreed, hr⟩ | ⟨hno, rfl, hr⟩
  · cases hr
    rw [if_pos rfl, ← bind_assoc]
    refine (ends_build env (i.request v) w₂).bind ?_ ?_
    · intro xs e w' _ h
      obtain ⟨ds, rfl, hds⟩ := h
      exact .inr ⟨consent, ds, .error e, hagreed, hds, rfl, rfl⟩
    · intro xs image w' _ h
      obtain ⟨ds, rfl, hds⟩ := h
      refine Ends.report_bind (Ends.pure (.inr ⟨consent, ds, .ok image, hagreed, hds, ?_, rfl⟩))
      rw [List.append_nil]
  · cases hr
    refine (ends_sayCancelled env w₂).bind ?_ ?_
    · intro xs e w' _ h
      cases h.2
    · intro xs u w' _ h
      obtain ⟨rfl, -⟩ := h
      exact Ends.pure (.inl ⟨hno, rfl, rfl⟩)

theorem ends_buildPlanned (env : Surroundings σ) (v : Version) (plan : Plan) (w : World σ) :
    Ends (buildPlanned env v plan.image) w fun xs r _ ↦
      plan.image = none ∧ xs = [] ∧ r = .ok none ∨
      ∃ i, plan.image = some i ∧
        (i.assumeYes = false ∧ xs = [.asked buildQuestion false] ∧ r = .ok none ∨
          ∃ consent ds s, Agreed i.assumeYes consent ∧ Building (i.request v) ds s ∧
            xs = consent ++ ds.map .call ∧ r = s.map some) := by
  cases plan.image with
  | none => exact Ends.pure (.inl ⟨rfl, rfl, rfl⟩)
  | some i =>
    refine (ends_buildImage env i v w).mono fun xs r _ h ↦ ?_
    exact .inr ⟨i, rfl, h⟩

theorem ends_produce (env : Surroundings σ) (plan : Plan) (w : World σ) :
    Ends (produce env plan) w fun xs r _ ↦ Producing plan xs r := by
  unfold produce
  cases hv : Version.parse plan.version with
  | error e =>
    refine Ends.silent_bind (Silent.orThrow _) ?_ ?_
    · intro e w' hw
      cases hw
      exact .refused hv
    · intro v w' hw
      cases hw
  | ok v =>
  refine Ends.silent_bind (Silent.orThrow _) ?_ ?_
  · intro e w' hw
    cases hw
  intro v w₁ hw
  cases hw
  -- Packaging comes first; how it ends decides whether the image stage is reached at all.
  refine Ends.report_bind ((carriesOut_packagePlanned env v plan _).bind ?_ ?_)
  · intro xs e w' _ h
    obtain ⟨cs, rfl, hcs, -⟩ := h
    exact .unpackaged hv hcs
  intro xs package w₂ _ h
  obtain ⟨cs, rfl, hcs, -⟩ := h
  refine (ends_buildPlanned env v plan w₂).bind ?_ ?_
  · intro xs e w' _ h
    rcases h with ⟨-, -, hr⟩ | ⟨i, hi, ⟨-, -, hr⟩ | ⟨consent, ds, s, hagreed, hds, rfl, hr⟩⟩
    · cases hr
    · cases hr
    · cases s with
      | ok image => cases hr
      | error failure =>
        cases hr
        exact .agreed package hv hcs hi hagreed hds
  · intro xs image w' _ h
    rcases h with ⟨hi, rfl, hr⟩ | ⟨i, hi, ⟨hno, rfl, hr⟩ | ⟨consent, ds, s, hagreed, hds, rfl, hr⟩⟩
    · cases hr
      refine Ends.pure ?_
      rw [List.append_nil, List.append_nil]
      exact .imageless hv hcs hi
    · cases hr
      refine Ends.pure ?_
      rw [List.append_nil]
      exact .cancelled hv hcs hi hno
    · cases s with
      | error failure => cases hr
      | ok image =>
        cases hr
        refine Ends.pure ?_
        rw [List.append_nil]
        exact .agreed package hv hcs hi hagreed hds

/-- The courses of a whole run that starts in `w`. Each comes to publishing, or to its end before
it, in a world `w₁`; where something is to be published the credentials are looked up there. -/
inductive Course (env : Surroundings σ) (credentials : Option Path) (plan : Plan) (w : World σ) :
    List Exchange → Except ReleaseError RunOutcome → Prop
  | refused {e : ReleaseError} {w₁ : World σ} : produce env plan w = .error e w₁ →
      Version.parse plan.version = .error e → Course env credentials plan w [] (.error e)
  | unpackaged {v : Version} {cs : List Call} {e : ReleaseError} {w₁ : World σ} :
      produce env plan w = .error e w₁ → Version.parse plan.version = .ok v →
      InTurn (plan.packagingSteps v) cs false →
      Course env credentials plan w (cs.map .call) (.error e)
  | imageless {v : Version} {cs : List Call} {package : Option PackageReport} {w₁ : World σ} :
      produce env plan w = .ok ⟨v, package, none⟩ w₁ → Version.parse plan.version = .ok v →
      InTurn (plan.packagingSteps v) cs true → plan.image = none →
      Course env credentials plan w (cs.map .call) (.ok ⟨v, package, .notRequested⟩)
  | cancelled {v : Version} {cs : List Call} {package : Option PackageReport} {i : ImagePlan}
      {w₁ : World σ} :
      produce env plan w = .ok ⟨v, package, none⟩ w₁ → Version.parse plan.version = .ok v →
      InTurn (plan.packagingSteps v) cs true → plan.image = some i → i.assumeYes = false →
      Course env credentials plan w (cs.map .call ++ [.asked buildQuestion false])
        (.ok ⟨v, package, .cancelled⟩)
  | unbuilt {v : Version} {cs ds : List Call} {i : ImagePlan} {consent : List Exchange}
      {e : ReleaseError} {w₁ : World σ} :
      produce env plan w = .error e w₁ → Version.parse plan.version = .ok v →
      InTurn (plan.packagingSteps v) cs true → plan.image = some i → Agreed i.assumeYes consent →
      Building (i.request v) ds (.error e) →
      Course env credentials plan w (cs.map .call ++ (consent ++ ds.map .call)) (.error e)
  | published {v : Version} {cs ds : List Call} {package : Option PackageReport} {i : ImagePlan}
      {consent ys : List Exchange} {image : BuiltImage} {w₁ : World σ}
      {r : Except ReleaseError PublishOutcome} :
      produce env plan w = .ok ⟨v, package, some image⟩ w₁ →
      Version.parse plan.version = .ok v → InTurn (plan.packagingSteps v) cs true →
      plan.image = some i → Agreed i.assumeYes consent → Building (i.request v) ds (.ok image) →
      Publishing env.interactive
        (credentialsFound credentials w₁.files image.primary.registryHost) image i.publish ys r →
      Course env credentials plan w (cs.map .call ++ (consent ++ ds.map .call) ++ ys)
        (r.map fun outcome ↦ ⟨v, package, .built image outcome⟩)

theorem course_of_error {env : Surroundings σ} {credentials : Option Path} {plan : Plan}
    {w w₁ : World σ} {xs : List Exchange} {e : ReleaseError} (hw : produce env plan w = .error e w₁)
    (h : Producing plan xs (.error e)) : Course env credentials plan w xs (.error e) := by
  generalize hr : (Except.error e : Except ReleaseError Products) = r at h
  cases h with
  | refused hv =>
    cases hr
    exact .refused hw hv
  | unpackaged hv hcs => exact .unpackaged hw hv hcs
  | imageless _ _ _ | cancelled _ _ _ _ => cases hr
  | @agreed v cs ds package i consent s hv hcs hi hagreed hds =>
    cases s with
    | ok image => cases hr
    | error failure =>
      cases hr
      exact .unbuilt hw hv hcs hi hagreed hds

theorem ends_finish (env : Surroundings σ) (credentials : Option Path) {plan : Plan}
    {w w₁ : World σ} {xs : List Exchange} {p : Products} (hw : produce env plan w = .ok p w₁)
    (h : Producing plan xs (.ok p)) :
    Ends (finish env credentials plan.image p.image >>= fun stage ↦
        return (⟨p.version, p.package, stage⟩ : RunOutcome)) w₁
      fun ys r _ ↦ Course env credentials plan w (xs ++ ys) r := by
  generalize hr : (Except.ok p : Except ReleaseError Products) = r at h
  cases h with
  | refused _ | unpackaged _ _ => cases hr
  | imageless hv hcs hi =>
    cases hr
    rw [hi]
    refine Ends.pure ?_
    rw [List.append_nil]
    exact .imageless hw hv hcs hi
  | cancelled hv hcs hi hno =>
    cases hr
    rw [hi]
    refine Ends.pure ?_
    rw [List.append_nil]
    exact .cancelled hw hv hcs hi hno
  | @agreed v cs ds package i consent s hv hcs hi hagreed hds =>
    cases s with
    | error failure => cases hr
    | ok image =>
      cases hr
      rw [hi]
      unfold finish
      rw [bind_assoc]
      refine (ends_publish env credentials image i.publish w₁).bind ?_ ?_
      · intro ys e w' _ hys
        exact .published hw hv hcs hi hagreed hds hys
      · intro ys outcome w' _ hys
        refine Ends.pure ?_
        rw [List.append_nil]
        exact .published hw hv hcs hi hagreed hds hys

theorem ends_run (env : Surroundings σ) (credentials : Option Path) (plan : Plan) (w : World σ) :
    Ends (run env credentials plan) w fun xs r _ ↦ Course env credentials plan w xs r := by
  refine (ends_produce env plan w).bind ?_ ?_
  · intro xs e w₁ hw h
    exact course_of_error hw h
  · intro xs p w₁ hw h
    exact ends_finish env credentials hw h

theorem course_run (env : Surroundings σ) (credentials : Option Path) (plan : Plan) (w : World σ) :
    Course env credentials plan w (exchanged (run env credentials plan) w)
      (result (run env credentials plan) w) := (ends_run env credentials plan w).exchanged

end Pipeline

end ReleaseTrain
