import ReleaseTrain.Image.Builder
import ReleaseTrain.Image.Publish
import ReleaseTrain.Proofs.InTurn

namespace ReleaseTrain

open Session

variable {σ : Type}

namespace Image

/-- What it means for a build that the daemon's check did not succeed. -/
def daemonFailure : Except ReleaseError Outcome → ReleaseError
  | .error cause => daemonUnreachable cause
  | .ok outcome => daemonRefused outcome

def buildFailure (request : BuildRequest) : Except ReleaseError Outcome → ReleaseError :=
  failureOf fun outcome ↦ .imageBuildFailed request.image.text outcome.code

def tagFailure (source target : ImageReference) : Except ReleaseError Outcome → ReleaseError :=
  failureOf fun outcome ↦ .executionFailed (tagCommand source target).text
    s!"Failed to tag {source.text} as {target.text} (exit code: {outcome.code.getD (-1)})"

/-- The courses of a build, the daemon's check included. -/
inductive Building (request : BuildRequest) :
    List Call → Except ReleaseError BuiltImage → Prop
  | unreachable {r : Except ReleaseError Outcome} : r ≠ .ok ⟨some 0⟩ →
      Building request [⟨.captured, infoCommand, r⟩] (.error (daemonFailure r))
  | unbuilt {r : Except ReleaseError Outcome} : r ≠ .ok ⟨some 0⟩ →
      Building request [.done .captured infoCommand, ⟨.captured, request.command, r⟩]
        (.error (buildFailure request r))
  | untagged {latest : ImageReference} {r : Except ReleaseError Outcome} :
      request.image.latestAlias = some latest → r ≠ .ok ⟨some 0⟩ →
      Building request
        [.done .captured infoCommand, .done .captured request.command,
          ⟨.captured, tagCommand request.image latest, r⟩]
        (.error (tagFailure request.image latest r))
  | tagged {latest : ImageReference} : request.image.latestAlias = some latest →
      Building request
        [.done .captured infoCommand, .done .captured request.command,
          .done .captured (tagCommand request.image latest)]
        (.ok ⟨request.image, some latest⟩)
  | built : request.image.latestAlias = none →
      Building request [.done .captured infoCommand, .done .captured request.command]
        (.ok ⟨request.image, none⟩)

theorem isCommand_checkDaemon (env : Surroundings σ) :
    IsCommand env .captured infoCommand daemonFailure (checkDaemon env) := by
  refine .of_attempt fun a w ↦ ?_
  obtain rfl | ⟨hne, ⟨cause, rfl⟩ | ⟨outcome, rfl, hfalse⟩⟩ := end_cases a
  · exact Ends.pure ⟨rfl, rfl, rfl, .inl ⟨rfl, rfl⟩⟩
  · exact Ends.throw ⟨rfl, rfl, rfl, .inr ⟨hne, rfl⟩⟩
  · dsimp only
    rw [hfalse]
    exact Ends.throw ⟨rfl, rfl, rfl, .inr ⟨hne, rfl⟩⟩

theorem isCommand_tag (env : Surroundings σ) (source target : ImageReference) :
    IsCommand env .captured (tagCommand source target) (tagFailure source target)
      (tag env source target) :=
  (IsCommand.demand env _ _).then_report _

theorem ends_build (env : Surroundings σ) (request : BuildRequest) (w : World σ) :
    Ends (checkDaemon env >>= fun _ ↦ build env request) w fun xs r _ ↦
      ∃ cs : List Call, xs = cs.map .call ∧ Building request cs r := by
  refine (isCommand_checkDaemon env).bind ?_ ?_
  · intro a _ ha
    exact ⟨[_], rfl, .unreachable ha⟩
  intro w₁
  refine Ends.report_bind ((IsCommand.demand env _ _).bind ?_ ?_)
  · intro a _ ha
    exact ⟨[_, _], rfl, .unbuilt ha⟩
  intro w₂
  refine Ends.report_bind ?_
  cases halias : request.image.latestAlias with
  | none => exact Ends.pure ⟨[_, _], rfl, .built halias⟩
  | some latest =>
    refine (isCommand_tag env request.image latest).bind ?_ ?_
    · intro a _ ha
      exact ⟨[_, _, _], rfl, .untagged halias ha⟩
    · intro w₃
      exact Ends.pure ⟨[_, _, _], rfl, .tagged halias⟩

end Image

namespace Publish

/-- The courses of pushing the references that are left, after those that are published. -/
inductive Pushing : List String → List String → List Call → Except ReleaseError (List String) → Prop
  | finished (published : List String) : Pushing published [] [] (.ok published)
  | pushed {published : List String} {reference : String} {left : List String} {cs : List Call}
      {r : Except ReleaseError (List String)} :
      Pushing (published ++ [reference]) left cs r →
      Pushing published (reference :: left) (.done .captured (pushCommand reference) :: cs) r
  | failed (published : List String) {reference : String} (left : List String)
      {a : Except ReleaseError Outcome} : a ≠ .ok ⟨some 0⟩ →
      Pushing published (reference :: left) [⟨.captured, pushCommand reference, a⟩]
        (.error (.pushFailed reference published))

/-- The courses of publishing, given whether somebody can be asked and what is found of
credentials. -/
inductive Publishing (interactive : Bool) (found : Except ReleaseError Bool) (image : BuiltImage) :
    PublishOptions → List Exchange → Except ReleaseError PublishOutcome → Prop
  | skipped (unchecked : Bool) : Publishing interactive found image ⟨true, unchecked⟩ [] (.ok .skipped)
  | unchecked {cs : List Call} {r : Except ReleaseError (List String)} :
      Pushing [] (image.references.map ImageReference.text) cs r →
      Publishing interactive found image ⟨false, true⟩ (cs.map .call) (r.map .pushed)
  | unreadable {e : ReleaseError} : found = .error e →
      Publishing interactive found image ⟨false, false⟩ [] (.error e)
  | known {cs : List Call} {r : Except ReleaseError (List String)} : found = .ok true →
      Pushing [] (image.references.map ImageReference.text) cs r →
      Publishing interactive found image ⟨false, false⟩ (cs.map .call) (r.map .pushed)
  | unattended : found = .ok false → interactive = false →
      Publishing interactive found image ⟨false, false⟩ []
        (.error (.authenticationRequired image.primary.registryHost image.primary.text))
  | declined : found = .ok false → interactive = true →
      Publishing interactive found image ⟨false, false⟩
        [.asked (loginQuestion image.primary.registryHost) false] (.ok .loginDeclined)
  | refused {a : Except ReleaseError Outcome} : found = .ok false → interactive = true →
      a ≠ .ok ⟨some 0⟩ →
      Publishing interactive found image ⟨false, false⟩
        [.asked (loginQuestion image.primary.registryHost) true,
          .call ⟨.interactive, loginCommand image.primary.registryHost, a⟩]
        (.error (.loginFailed image.primary.registryHost image.primary.text))
  | loggedIn {cs : List Call} {r : Except ReleaseError (List String)} : found = .ok false →
      interactive = true → Pushing [] (image.references.map ImageReference.text) cs r →
      Publishing interactive found image ⟨false, false⟩
        (.asked (loginQuestion image.primary.registryHost) true ::
          .call (.done .interactive (loginCommand image.primary.registryHost)) :: cs.map .call)
        (r.map .pushed)

theorem isCommand_pushOne (env : Surroundings σ) (published : List String) (reference : String) :
    IsCommand env .captured (pushCommand reference) (fun _ ↦ .pushFailed reference published)
      (pushOne env published reference) := by
  refine .report_bind (.of_attempt fun a w ↦ ?_)
  obtain rfl | ⟨hne, ⟨cause, rfl⟩ | ⟨outcome, rfl, hfalse⟩⟩ := end_cases a
  · exact Ends.report ⟨rfl, rfl, rfl, .inl ⟨rfl, rfl⟩⟩
  · exact Ends.report_bind (Ends.throw ⟨rfl, rfl, rfl, .inr ⟨hne, rfl⟩⟩)
  · dsimp only
    rw [hfalse]
    exact Ends.throw ⟨rfl, rfl, rfl, .inr ⟨hne, rfl⟩⟩

theorem ends_pushEach (env : Surroundings σ) (published left : List String) (w : World σ) :
    Ends (pushEach env published left) w fun xs r _ ↦
      ∃ cs : List Call, xs = cs.map .call ∧ Pushing published left cs r := by
  induction left generalizing published w with
  | nil => exact Ends.pure ⟨[], rfl, .finished published⟩
  | cons reference left ih =>
    refine (isCommand_pushOne env published reference).bind ?_ ?_
    · intro a _ ha
      exact ⟨[_], rfl, .failed published left ha⟩
    · intro w'
      refine (ih (published ++ [reference]) w').mono ?_
      intro ys r w'' h
      obtain ⟨cs, rfl, hcs⟩ := h
      exact ⟨_ :: cs, rfl, .pushed hcs⟩

theorem ends_push (env : Surroundings σ) (image : BuiltImage) (w : World σ) :
    Ends (push env image) w fun xs r _ ↦ ∃ (cs : List Call) (s : Except ReleaseError (List String)),
      xs = cs.map .call ∧ r = s.map .pushed ∧
        Pushing [] (image.references.map ImageReference.text) cs s := by
  refine (ends_pushEach env [] (image.references.map ImageReference.text) w).bind ?_ ?_
  · intro xs e w' _ h
    obtain ⟨cs, rfl, hcs⟩ := h
    exact ⟨cs, _, rfl, rfl, hcs⟩
  · intro xs published w' _ h
    obtain ⟨cs, rfl, hcs⟩ := h
    exact Ends.pure ⟨cs, _, List.append_nil _, rfl, hcs⟩

theorem authState_eq (env : Surroundings σ) (credentials : Option Path) (image : BuiltImage)
    (w : World σ) : authState env credentials image w =
      match credentialsFound credentials w.files image.primary.registryHost with
      | .ok found => .ok (.of found env.interactive) w
      | .error e => .error e w := by
  have h := bind_of_ok (f := fun fs ↦ do
    let found ← orThrow (credentialsFound credentials fs image.primary.registryHost)
    return AuthState.of found env.interactive) (show Session.files w = .ok w.files w from rfl)
  refine h.trans ?_
  cases credentialsFound credentials w.files image.primary.registryHost <;> rfl

theorem silent_authState (env : Surroundings σ) (credentials : Option Path) (image : BuiltImage) :
    Silent (authState env credentials image) :=
  Silent.files.bind fun _ ↦ (Silent.orThrow _).bind fun _ ↦ .pure _

theorem isCommand_login (env : Surroundings σ) (image : BuiltImage) :
    IsCommand env .interactive (loginCommand image.primary.registryHost)
      (fun _ ↦ .loginFailed image.primary.registryHost image.primary.text) (login env image) := by
  refine .of_attempt fun a w ↦ ?_
  dsimp only
  by_cases ha : a = .ok ⟨some 0⟩
  · subst ha
    exact Ends.report ⟨rfl, rfl, rfl, .inl ⟨rfl, rfl⟩⟩
  · have hfalse :
        (⟨.interactive, loginCommand image.primary.registryHost, a⟩ : Call).succeeded = false :=
      Call.succeeded_eq_false ha
    rw [Call.succeeded] at hfalse
    rw [hfalse]
    exact Ends.throw ⟨rfl, rfl, rfl, .inr ⟨ha, rfl⟩⟩

theorem ends_declined (image : BuiltImage) (w : World σ) :
    Ends (declined image) w fun xs r _ ↦ xs = [] ∧ r = .ok .loginDeclined := by
  have hrecord : Silent (record (image.references.map fun r ↦
      .reported (.detail s!"docker push {r.text}")) : Session σ Unit) := by
    have h := Silent.record_reported (σ := σ)
      (image.references.map fun r ↦ .detail s!"docker push {r.text}")
    rwa [List.map_map] at h
  refine Ends.report_bind (Ends.silent_bind hrecord ?_ ?_)
  · intro e w' hw
    cases hw
  · intro u w' _
    exact Ends.pure ⟨rfl, rfl⟩

theorem ends_pushAuthenticated (env : Surroundings σ) (credentials : Option Path)
    (image : BuiltImage) (w : World σ) :
    Ends (pushAuthenticated env credentials image) w fun xs r _ ↦
      Publishing env.interactive
        (credentialsFound credentials w.files image.primary.registryHost) image ⟨false, false⟩ xs r := by
  refine Ends.silent_bind (silent_authState env credentials image) ?_ ?_
  · intro e w' hw
    rw [authState_eq] at hw
    cases hfound : credentialsFound credentials w.files image.primary.registryHost with
    | ok found => simp [hfound] at hw
    | error failure =>
      rw [hfound] at hw
      cases hw
      exact .unreadable rfl
  · intro state w' hw
    rw [authState_eq] at hw
    cases hfound : credentialsFound credentials w.files image.primary.registryHost with
    | error failure => simp [hfound] at hw
    | ok found =>
      rw [hfound] at hw
      cases hw
      cases found with
      | true =>
        refine Ends.report_bind ((ends_push env image _).mono ?_)
        intro xs r w' h
        obtain ⟨cs, s, rfl, rfl, hcs⟩ := h
        exact .known rfl hcs
      | false =>
        cases hinteractive : env.interactive with
        | false => exact Ends.throw (.unattended rfl rfl)
        | true =>
          refine Ends.confirm_bind fun answer w' ↦ ?_
          cases answer with
          | false =>
            refine (ends_declined image w').mono ?_
            intro xs r w'' h
            obtain ⟨rfl, rfl⟩ := h
            exact .declined rfl rfl
          | true =>
            refine (isCommand_login env image).bind ?_ ?_
            · intro a w'' ha
              exact .refused rfl rfl ha
            · intro w''
              refine (ends_push env image w'').mono ?_
              intro xs r w₃ h
              obtain ⟨cs, s, rfl, rfl, hcs⟩ := h
              exact .loggedIn rfl rfl hcs

theorem ends_publish (env : Surroundings σ) (credentials : Option Path) (image : BuiltImage)
    (options : PublishOptions) (w : World σ) :
    Ends (publish env credentials image options) w fun xs r _ ↦
      Publishing env.interactive
        (credentialsFound credentials w.files image.primary.registryHost) image options xs r := by
  obtain ⟨noPush, unchecked⟩ := options
  cases noPush with
  | true => exact Ends.report_bind (Ends.pure (.skipped unchecked))
  | false =>
    cases unchecked with
    | true =>
      refine Ends.report_bind ((ends_push env image _).mono ?_)
      intro xs r w' h
      obtain ⟨cs, s, rfl, rfl, hcs⟩ := h
      exact .unchecked hcs
    | false => exact ends_pushAuthenticated env credentials image w

end Publish

end ReleaseTrain
