import ReleaseTrain.Proofs.IssuedCommands

namespace ReleaseTrain

open Session

def HoldsEntry (credentials : Option Path) (fs : FileSystem) (host : String) : Prop :=
  ∃ path text fs' file key, credentials = some path ∧
    FileSystem.readText path.bytes fs = .ok text fs' ∧ CredentialFile.parse text = .ok file ∧
    key ∈ file.keys ∧ normalHost key = normalHost host

/-- The credential file is there and cannot be read, or is malformed. -/
inductive Unusable (path : Path) (fs : FileSystem) : ReleaseError → Prop
  | unreadable {failure : FileSystem.Failure} {fs' : FileSystem} :
      FileSystem.readText path.bytes fs = .error failure fs' → failure ≠ .notFound →
      Unusable path fs (.io failure)
  | malformed {text : String} {fs' : FileSystem} {failure : Json.Failure} :
      FileSystem.readText path.bytes fs = .ok text fs' →
      CredentialFile.parse text = .error failure → Unusable path fs (.json failure)

theorem CredentialFile.hasHost_iff {file : CredentialFile} {host : String} :
    file.hasHost host = true ↔ ∃ key ∈ file.keys, normalHost key = normalHost host := by
  simp [hasHost]

namespace Publish

variable {credentials : Option Path} {fs : FileSystem} {host : String}

theorem holdsEntry_of_credentialsFound (h : credentialsFound credentials fs host = .ok true) :
    HoldsEntry credentials fs host := by
  cases credentials with
  | none => cases h
  | some path =>
    change hasCredentials fs path host = .ok true at h
    unfold hasCredentials at h
    split at h
    · next text fs' hread =>
      cases hparse : CredentialFile.parse text with
      | error failure => simp [hparse] at h
      | ok file =>
        simp only [hparse, Except.ok.injEq] at h
        obtain ⟨key, hkey, hhost⟩ := CredentialFile.hasHost_iff.1 h
        exact ⟨path, text, fs', file, key, rfl, hread, hparse, hkey, hhost⟩
    · cases h
    · cases h

theorem credentialsFound_of_unusable {path : Path} {e : ReleaseError} (h : Unusable path fs e)
    (host : String) : credentialsFound (some path) fs host = .error e := by
  change hasCredentials fs path host = .error e
  unfold hasCredentials
  cases h with
  | @unreadable failure fs' hread hmissing =>
    rw [hread]
    cases failure <;> first | rfl | exact absurd rfl hmissing
  | malformed hread hparse =>
    rw [hread]
    simp only [hparse]

theorem unusable_of_credentialsFound {e : ReleaseError}
    (h : credentialsFound credentials fs host = .error e) : ∃ path, Unusable path fs e := by
  cases credentials with
  | none => cases h
  | some path =>
    change hasCredentials fs path host = .error e at h
    unfold hasCredentials at h
    split at h
    · next text fs' hread =>
      cases hparse : CredentialFile.parse text with
      | ok file => simp [hparse] at h
      | error failure =>
        simp only [hparse, Except.error.injEq] at h
        exact ⟨path, h ▸ .malformed hread hparse⟩
    · cases h
    · next failure fs' hmissing hread =>
      cases h
      exact ⟨path, .unreadable hread hmissing⟩

variable {interactive : Bool} {found : Except ReleaseError Bool} {image : BuiltImage}
  {xs : List Exchange} {r : Except ReleaseError PublishOutcome} {options : PublishOptions}

theorem Publishing.of_noPush (h : Publishing interactive found image options xs r)
    (hpush : options.noPush = true) : xs = [] ∧ r = .ok .skipped := by
  cases h with
  | skipped _ => exact ⟨rfl, rfl⟩
  | unchecked _ | unreadable _ | known _ _ | unattended _ _ | declined _ _ | refused _ _ _
  | loggedIn _ _ _ => cases hpush

theorem Publishing.of_error {e : ReleaseError}
    (h : Publishing interactive (.error e) image options xs r) (hpush : options.noPush = false)
    (hcheck : options.skipLoginCheck = false) : xs = [] ∧ r = .error e := by
  generalize hfound : Except.error e = found at h
  cases h with
  | skipped _ => cases hpush
  | unchecked _ => cases hcheck
  | unreadable h =>
    rw [h] at hfound
    cases hfound
    exact ⟨rfl, rfl⟩
  | known h _ | unattended h _ | declined h _ | refused h _ _ | loggedIn h _ _ =>
    rw [h] at hfound
    cases hfound

theorem Publishing.eachCall (h : Publishing interactive found image options xs r) :
    EachCall (fun pre c ↦
      (∃ reference, c.command = pushCommand reference) ∧ options.noPush = false ∧
        (options.skipLoginCheck = true ∨ found = .ok true ∨
          .call (.done .interactive (loginCommand image.primary.registryHost)) ∈ pre) ∨
      c.order = (.interactive, loginCommand image.primary.registryHost) ∧
        options.noPush = false ∧ options.skipLoginCheck = false ∧ interactive = true ∧
        found = .ok false ∧
        .asked (loginQuestion image.primary.registryHost) true ∈ pre) xs := by
  cases h with
  | skipped _ | unreadable _ | unattended _ _ => exact .nil
  | unchecked hcs =>
    refine hcs.eachCall.mono fun pre c h ↦ ?_
    obtain ⟨_, reference, _, _, hc, _⟩ := h
    exact .inl ⟨⟨reference, hc⟩, rfl, .inl rfl⟩
  | known hfound hcs =>
    refine hcs.eachCall.mono fun pre c h ↦ ?_
    obtain ⟨_, reference, _, _, hc, _⟩ := h
    exact .inl ⟨⟨reference, hc⟩, rfl, .inr (.inl hfound)⟩
  | declined _ _ => exact .asked .nil
  | refused hfound hinteractive _ =>
    exact .asked (.call (.inr ⟨rfl, rfl, rfl, hinteractive, hfound, List.mem_cons_self⟩) .nil)
  | loggedIn hfound hinteractive hcs =>
    refine .asked (.call (.inr ⟨rfl, rfl, rfl, hinteractive, hfound, List.mem_cons_self⟩) ?_)
    refine hcs.eachCall.mono fun pre c h ↦ ?_
    obtain ⟨_, reference, _, _, hc, _⟩ := h
    exact .inl ⟨⟨reference, hc⟩, rfl, .inr (.inr (List.mem_cons_of_mem _ List.mem_cons_self))⟩

end Publish

namespace Pipeline

open Image Publish

variable {σ : Type} {env : Surroundings σ} {credentials : Option Path} {plan : Plan} {w : World σ}
  {xs : List Exchange} {r : Except ReleaseError RunOutcome}

/-- A push is permitted after `pre`: pushing is wanted, and the operator need not be known to the
registry, is known to it when publishing begins, or has logged in. -/
def PushPermitted (env : Surroundings σ) (credentials : Option Path) (plan : Plan) (w : World σ)
    (pre : List Exchange) : Prop :=
  ∃ i v, plan.image = some i ∧ Version.parse plan.version = .ok v ∧ i.publish.noPush = false ∧
    (i.publish.skipLoginCheck = true ∨
      (∃ p w₁, produce env plan w = .ok p w₁ ∧
        HoldsEntry credentials w₁.files (i.reference v).registryHost) ∨
      .call (.done .interactive (loginCommand (i.reference v).registryHost)) ∈ pre)

/-- A login is permitted after `pre`: it talks to the terminal, it is needed, and the operator has
said yes to it. -/
def LoginPermitted (env : Surroundings σ) (credentials : Option Path) (plan : Plan) (w : World σ)
    (pre : List Exchange) (c : Call) : Prop :=
  ∃ i v, plan.image = some i ∧ Version.parse plan.version = .ok v ∧
    c.order = (.interactive, loginCommand (i.reference v).registryHost) ∧
    LoginNeeded env credentials plan i w ∧
    .asked (loginQuestion (i.reference v).registryHost) true ∈ pre

theorem Course.permitted (h : Course env credentials plan w xs r) :
    EachCall (fun pre c ↦
      (c.command.isDocker "push" = true → PushPermitted env credentials plan w pre) ∧
      (c.command.isDocker "login" = true → LoginPermitted env credentials plan w pre c)) xs := by
  refine h.eachCall ?_ ?_ ?_
  · intro pre c hc
    rw [Invocation.isDocker_of_program hc, Invocation.isDocker_of_program hc]
    simp
  · intro before i v ds s _ _ hds
    refine .of_mem fun c hc pre ↦ ?_
    rw [calls_map_call] at hc
    rw [hds.isDocker_eq_false hc (by decide), hds.isDocker_eq_false hc (by decide)]
    simp
  · intro before i v package image w₁ ds ys s hi hv hw hds hys
    have himage := hds.image_eq
    subst himage
    refine hys.eachCall.mono fun pre c h ↦ ?_
    obtain ⟨⟨reference, hc⟩, hpush, hwhy⟩ | ⟨hc, hpush, hcheck, hinteractive, hfound, hyes⟩ := h
    · rw [hc, isDocker_pushCommand, isDocker_pushCommand]
      refine ⟨fun _ ↦ ⟨i, v, hi, hv, hpush, ?_⟩, by simp⟩
      obtain hcheck | hfound | hlogin := hwhy
      · exact .inl hcheck
      · exact .inr (.inl ⟨_, w₁, hw, holdsEntry_of_credentialsFound hfound⟩)
      · exact .inr (.inr (List.mem_append_right _ hlogin))
    · have hlogin : c.command = loginCommand (i.reference v).registryHost := (Prod.mk.inj hc).2
      rw [hlogin, isDocker_loginCommand, isDocker_loginCommand]
      refine ⟨by simp, fun _ ↦ ⟨i, v, hi, hv, hc, ?_, List.mem_append_right _ hyes⟩⟩
      exact ⟨hpush, hcheck, hinteractive, _, _, w₁, hw, rfl, hfound⟩

theorem Course.length_logins_le (h : Course env credentials plan w xs r) :
    (issued "login" xs).length ≤ 1 := by
  refine Nat.le_trans (h.issued_prefix "login").length_le ?_
  unfold Plan.commands
  cases hv : Version.parse plan.version with
  | error e => exact Nat.zero_le 1
  | ok v =>
    dsimp only
    rw [ofVerb_append, ofVerb_packagingSteps, List.nil_append]
    cases hi : plan.image with
    | none => exact Nat.zero_le 1
    | some i =>
      rw [Option.map_some, Option.getD_some, ImagePlan.ofVerb_commands]
      split
      · exact Nat.zero_le 1
      have hverb : "login" ≠ if (i.request v).isMultiPlatform then "buildx" else "build" := by
        split <;> decide
      have hbuild : ofVerb "login" (buildCommands (i.request v)) = [] := by
        rw [ofVerb_buildCommands, if_neg hverb]
        rfl
      rw [hbuild, List.nil_append, ofVerb_publishCommands]
      split
      · exact Nat.zero_le 1
      · split <;> simp

/-- Whatever the tools, the files and the operator do, a run pushes only what it is permitted to
push and logs in only when it is permitted to, at most once. Credentials that cannot be read end
publishing at once, whoever could be asked. Where nothing is to be pushed, publishing comes to the
same whatever the credentials, the tools and the operator are. -/
theorem push_authorisation (env : Surroundings σ) (credentials : Option Path) (plan : Plan)
    (w : World σ) :
    let xs := exchanged (run env credentials plan) w
    EachCall (fun pre c ↦ c.command.isDocker "push" = true →
        PushPermitted env credentials plan w pre) xs ∧
      EachCall (fun pre c ↦ c.command.isDocker "login" = true →
        LoginPermitted env credentials plan w pre c) xs ∧
      (issued "login" xs).length ≤ 1 ∧
      (∀ path image options w₁ e, options.noPush = false → options.skipLoginCheck = false →
        Unusable path w₁.files e →
        result (publish env (some path) image options) w₁ = .error e ∧
          exchanged (publish env (some path) image options) w₁ = []) ∧
      ∀ (τ : Type) (env' : Surroundings τ) (credentials' : Option Path) image options options'
        w₁ w₂, options.noPush = true → options'.noPush = true →
        result (publish env credentials image options) w₁ =
            result (publish env' credentials' image options') w₂ ∧
          exchanged (publish env credentials image options) w₁ =
            exchanged (publish env' credentials' image options') w₂ := by
  intro xs
  have hcourse := course_run env credentials plan w
  refine ⟨?_, ?_, hcourse.length_logins_le, ?_, ?_⟩
  · exact hcourse.permitted.mono fun pre c h ↦ h.1
  · exact hcourse.permitted.mono fun pre c h ↦ h.2
  · intro path image options w₁ e hpush hcheck hbroken
    have h := (ends_publish env (some path) image options w₁).exchanged
    rw [credentialsFound_of_unusable hbroken] at h
    obtain ⟨hxs, hr⟩ := h.of_error hpush hcheck
    exact ⟨hr, hxs⟩
  · intro τ env' credentials' image options options' w₁ w₂ hpush hpush'
    have h := (ends_publish env credentials image options w₁).exchanged.of_noPush hpush
    have h' := (ends_publish env' credentials' image options' w₂).exchanged.of_noPush hpush'
    exact ⟨h.2.trans h'.2.symm, h.1.trans h'.1.symm⟩

end Pipeline

end ReleaseTrain
