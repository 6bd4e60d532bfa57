import ReleaseTrain.Proofs.Authorisation
import ReleaseTrain.Proofs.RegistryHistory

namespace ReleaseTrain

open Session

def Effect.pushed? : Effect → Option String
  | .push reference => some reference
  | _ => none

/-- The references whose push succeeded, in the order of the pushes. -/
def pushed (xs : List Exchange) : List String := (effects (calls xs)).filterMap Effect.pushed?

theorem pushed_append (xs ys : List Exchange) : pushed (xs ++ ys) = pushed xs ++ pushed ys := by
  rw [pushed, calls_append, effects_append, List.filterMap_append]
  rfl

theorem issued_append (verb : String) (xs ys : List Exchange) :
    issued verb (xs ++ ys) = issued verb xs ++ issued verb ys := by
  rw [issued, calls_append, List.map_append, ofVerb_append]
  rfl

theorem issued_eq_nil {verb : String} {xs : List Exchange}
    (h : ∀ c, .call c ∈ xs → c.command.isDocker verb = false) : issued verb xs = [] := by
  refine List.eq_nil_iff_forall_not_mem.2 fun command hmem ↦ ?_
  obtain ⟨c, hc, rfl, hverb⟩ := mem_issued.1 hmem
  rw [h c hc] at hverb
  cases hverb

/-- A push that ended with `a`. -/
def pushCall (reference : String) (a : Except ReleaseError Outcome) : Exchange :=
  .call ⟨.captured, pushCommand reference, a⟩

section Pushes

variable (reference : String) (references : List String) (a : Except ReleaseError Outcome)

theorem issued_pushCall : issued "push" [pushCall reference a] = [pushCommand reference] := by
  rw [issued, pushCall, calls_call, calls_nil, List.map_cons, Call.order, ofVerb_cons,
    isDocker_pushCommand]
  rfl

theorem pushed_pushCall_of_ne (h : a ≠ .ok ⟨some 0⟩) : pushed [pushCall reference a] = [] := by
  have hnone : (⟨.captured, pushCommand reference, a⟩ : Call).effect? = none := by
    rw [Call.effect?, Call.succeeded_eq_false h]
    rfl
  rw [pushed, pushCall, calls_call, effects_cons, hnone]
  rfl

theorem issued_pushes :
    issued "push" (references.map (pushCall · (.ok ⟨some 0⟩))) = references.map pushCommand := by
  induction references with
  | nil => rfl
  | cons reference references ih =>
    rw [List.map_cons, ← List.singleton_append, issued_append, ih, issued_pushCall]
    rfl

theorem pushed_pushes : pushed (references.map (pushCall · (.ok ⟨some 0⟩))) = references := by
  induction references with
  | nil => rfl
  | cons reference references ih =>
    have hone : pushed [pushCall reference (.ok ⟨some 0⟩)] = [reference] := by
      have heffect : (Call.done .captured (pushCommand reference)).effect? =
          some (.push reference) := by
        rw [Call.effect?, if_pos (Call.succeeded_done _ _)]
        exact effect?_pushCommand reference
      change (effects [Call.done .captured (pushCommand reference)]).filterMap _ = _
      rw [effects_cons, heffect]
      rfl
    rw [List.map_cons, ← List.singleton_append, pushed_append, hone, ih]
    rfl

end Pushes

namespace Publish

theorem Pushing.account {published left : List String} {cs : List Call}
    {r : Except ReleaseError (List String)} (h : Pushing published left cs r) :
    r = .ok (published ++ left) ∧ cs.map .call = left.map (pushCall · (.ok ⟨some 0⟩)) ∨
      ∃ done reference rest a, left = done ++ reference :: rest ∧ a ≠ .ok ⟨some 0⟩ ∧
        r = .error (.pushFailed reference (published ++ done)) ∧
        cs.map .call = done.map (pushCall · (.ok ⟨some 0⟩)) ++ [pushCall reference a] := by
  induction h with
  | finished published => exact .inl ⟨by rw [List.append_nil], rfl⟩
  | @pushed published reference left cs r _ ih =>
    obtain ⟨rfl, hcs⟩ | ⟨done, s, rest, a, rfl, ha, rfl, hcs⟩ := ih
    · refine .inl ⟨?_, ?_⟩
      · rw [List.append_assoc, List.singleton_append]
      · rw [List.map_cons, hcs]
        rfl
    · refine .inr ⟨reference :: done, s, rest, a, rfl, ha, ?_, ?_⟩
      · rw [List.append_assoc, List.singleton_append]
      · rw [List.map_cons, hcs]
        rfl
  | @failed published reference left a ha =>
    refine .inr ⟨[], reference, left, a, rfl, ha, ?_, rfl⟩
    rw [List.append_nil]

theorem credentialsFound_ne_pushFailed {credentials : Option Path} {fs : FileSystem}
    {host reference : String} {published : List String} :
    credentialsFound credentials fs host ≠ .error (.pushFailed reference published) := by
  intro h
  obtain ⟨path, hunusable⟩ := unusable_of_credentialsFound h
  cases hunusable

/-- What comes before the pushes: nothing, or a login that the operator agreed to. -/
inductive Prelude (host : String) : List Exchange → Prop
  | none : Prelude host []
  | login : Prelude host
      [.asked (loginQuestion host) true, .call (.done .interactive (loginCommand host))]

section Prelude

variable {host : String} {xs : List Exchange}

theorem Prelude.issued_eq (h : Prelude host xs) : issued "push" xs = [] := by
  cases h with
  | none => rfl
  | login =>
    refine issued_eq_nil fun c hc ↦ ?_
    simp only [List.mem_cons, List.not_mem_nil, or_false, reduceCtorEq, false_or,
      Exchange.call.injEq] at hc
    rw [hc]
    exact isDocker_loginCommand "push" host

theorem Prelude.pushed_eq (h : Prelude host xs) : pushed xs = [] := by
  cases h with
  | none => rfl
  | login =>
    have hnone : (Call.done .interactive (loginCommand host)).effect? = Option.none := by
      rw [Call.effect?, if_pos (Call.succeeded_done _ _)]
      exact effect?_loginCommand host
    change (effects [Call.done .interactive (loginCommand host)]).filterMap _ = _
    rw [effects_cons, hnone]
    rfl

end Prelude

variable {interactive : Bool} {found : Except ReleaseError Bool} {image : BuiltImage}
  {xs : List Exchange} {r : Except ReleaseError PublishOutcome} {options : PublishOptions}

theorem Publishing.pushes (h : Publishing interactive found image options xs r)
    (hfound : ∀ reference published, found ≠ .error (.pushFailed reference published)) :
    ((∀ c, .call c ∈ xs → c.command.isDocker "push" = false) ∧
        (∀ refs, r ≠ .ok (.pushed refs)) ∧
        ∀ reference published, r ≠ .error (.pushFailed reference published)) ∨
      ∃ before cs s, Prelude image.primary.registryHost before ∧ xs = before ++ cs.map .call ∧
        Pushing [] (image.references.map ImageReference.text) cs s ∧ r = s.map .pushed := by
  cases h with
  | skipped _ | unattended _ _ | declined _ _ => exact .inl ⟨by simp, nofun, nofun⟩
  | unreadable h =>
    refine .inl ⟨by simp, nofun, fun reference published hr ↦ ?_⟩
    exact hfound reference published (h.trans (by rw [Except.error.inj hr]))
  | refused _ _ _ =>
    refine .inl ⟨fun c hc ↦ ?_, nofun, nofun⟩
    simp only [List.mem_cons, List.not_mem_nil, or_false, reduceCtorEq, false_or,
      Exchange.call.injEq] at hc
    rw [hc]
    exact isDocker_loginCommand "push" _
  | unchecked hcs | known _ hcs => exact .inr ⟨_, _, _, .none, rfl, hcs, rfl⟩
  | loggedIn _ _ hcs => exact .inr ⟨_, _, _, .login, rfl, hcs, rfl⟩

theorem Publishing.of_pushed {refs : List String}
    (h : Publishing interactive found image options xs (.ok (.pushed refs)))
    (hfound : ∀ reference published, found ≠ .error (.pushFailed reference published)) :
    refs = image.references.map ImageReference.text ∧
      issued "push" xs = refs.map pushCommand ∧
      ∀ c, .call c ∈ xs → c.command.isDocker "push" = true → c.result = .ok ⟨some 0⟩ := by
  obtain ⟨-, hno, -⟩ | ⟨before, cs, s, hbefore, rfl, hcs, hs⟩ := h.pushes hfound
  · exact absurd rfl (hno refs)
  obtain ⟨rfl, hcalls⟩ | ⟨_, _, _, _, _, _, rfl, _⟩ := hcs.account
  · cases hs
    rw [List.nil_append, hcalls]
    refine ⟨rfl, ?_, fun c hc hverb ↦ ?_⟩
    · rw [issued_append, hbefore.issued_eq, issued_pushes, List.nil_append]
    · rcases List.mem_append.1 hc with hc | hc
      · have hmem : c.command ∈ issued "push" before := mem_issued.2 ⟨c, hc, rfl, hverb⟩
        rw [hbefore.issued_eq] at hmem
        cases hmem
      · obtain ⟨reference, -, heq⟩ := List.mem_map.1 hc
        cases heq
        rfl
  · cases hs

theorem Publishing.of_pushFailed {reference : String} {published : List String}
    (h : Publishing interactive found image options xs (.error (.pushFailed reference published)))
    (hfound : ∀ reference published, found ≠ .error (.pushFailed reference published)) :
    pushed xs = published ∧
      published ++ [reference] <+: image.references.map ImageReference.text ∧
      issued "push" xs = (published ++ [reference]).map pushCommand ∧
      ∃ before c, xs = before ++ [.call c] ∧ c.command = pushCommand reference ∧
        c.result ≠ .ok ⟨some 0⟩ := by
  obtain ⟨-, -, hno⟩ | ⟨before, cs, s, hbefore, rfl, hcs, hs⟩ := h.pushes hfound
  · exact absurd rfl (hno reference published)
  obtain ⟨rfl, -⟩ | ⟨done, last, rest, a, hleft, ha, rfl, hcalls⟩ := hcs.account
  · cases hs
  cases hs
  rw [List.nil_append, hcalls, hleft]
  refine ⟨?_, ?_, ?_, ?_⟩
  · rw [pushed_append, pushed_append, hbefore.pushed_eq, pushed_pushes,
      pushed_pushCall_of_ne _ _ ha, List.nil_append, List.append_nil]
  · exact ⟨rest, by rw [List.append_assoc, List.singleton_append]⟩
  · rw [issued_append, issued_append, hbefore.issued_eq, issued_pushes, issued_pushCall,
      List.nil_append, List.map_append]
    rfl
  · exact ⟨before ++ done.map (pushCall · (.ok ⟨some 0⟩)), _, (List.append_assoc _ _ _).symm, rfl,
      ha⟩

end Publish

namespace Image

variable {σ : Type}

theorem carriesOut_build (env : Surroundings σ) (request : BuildRequest) :
    CarriesOut (build env request)
      ((.captured, request.command) ::
        request.image.latestAlias.toList.map fun latest ↦
          (.captured, tagCommand request.image latest))
      (· = ⟨request.image, request.image.latestAlias⟩) := by
  refine .silent_bind (Silent.report _) fun _ ↦ ?_
  refine (CarriesOut.of_isCommand (IsCommand.demand env _ _)).bind fun _ _ ↦ ?_
  refine .silent_bind (Silent.report _) fun _ ↦ ?_
  cases request.image.latestAlias with
  | none => exact .pure rfl
  | some latest =>
    exact (CarriesOut.of_isCommand (isCommand_tag env _ _)).bind fun _ _ ↦ .pure rfl

theorem eq_of_build {env : Surroundings σ} {request : BuildRequest} {w : World σ}
    {image : BuiltImage} (h : result (build env request) w = .ok image) :
    image = ⟨request.image, request.image.latestAlias⟩ := by
  obtain ⟨-, -, -, hpost⟩ := (carriesOut_build env request w).exchanged
  exact hpost image h

end Image

theorem ImageReference.nodup_references (r : ImageReference) :
    ((⟨r, r.latestAlias⟩ : BuiltImage).references.map ImageReference.text).Nodup := by
  cases h : isProductionTag r.tag with
  | true =>
    rw [latestAlias_of_production h]
    simpa [BuiltImage.references] using r.text_ne_latest_of_production h
  | false =>
    rw [latestAlias_of_not_production h]
    simp [BuiltImage.references]

theorem notMem_of_concat_prefix {α : Type} {x : α} {as bs : List α} (h : as ++ [x] <+: bs)
    (hbs : bs.Nodup) : x ∉ as := by
  intro hx
  have hnodup := h.sublist.nodup hbs
  exact (List.nodup_append.1 hnodup).2.2 x hx x List.mem_cons_self rfl

namespace Pipeline

open Image Publish

variable {σ : Type} {env : Surroundings σ} {credentials : Option Path} {plan : Plan} {w : World σ}
  {xs : List Exchange} {r : Except ReleaseError RunOutcome}

theorem issued_push_of_building {request : BuildRequest} {ds : List Call}
    {s : Except ReleaseError BuiltImage} (h : Building request ds s) :
    issued "push" (ds.map .call) = [] := by
  refine issued_eq_nil fun c hc ↦ ?_
  rw [← mem_calls, calls_map_call] at hc
  exact h.isDocker_eq_false hc (by decide)

theorem issued_of_packaging {v : Version} {cs : List Call} {all : Bool}
    (h : InTurn (plan.packagingSteps v) cs all) (verb : String) :
    issued verb (cs.map .call) = [] := by
  refine issued_eq_nil fun c hc ↦ ?_
  rw [← mem_calls, calls_map_call] at hc
  exact Invocation.isDocker_of_program
    (Plan.program_of_mem_packagingSteps (h.order_mem hc)) verb

theorem Agreed.issued_eq {assumeYes : Bool} {consent : List Exchange}
    (h : Agreed assumeYes consent) (verb : String) : issued verb consent = [] := by
  rw [issued, h.calls_eq]
  rfl

theorem Course.issued_push_eq_nil (h : Course env credentials plan w xs r)
    (hpushed : ∀ o image refs, r = .ok o → o.image ≠ .built image (.pushed refs))
    (hfailed : ∀ reference published, r ≠ .error (.pushFailed reference published)) :
    issued "push" xs = [] := by
  cases h with
  | refused _ _ => rfl
  | unpackaged _ _ hcs | imageless _ _ hcs _ => exact issued_of_packaging hcs "push"
  | cancelled _ _ hcs _ _ =>
    rw [issued_append, issued_of_packaging hcs]
    rfl
  | unbuilt _ _ hcs _ hagreed hds =>
    rw [issued_append, issued_append, issued_of_packaging hcs, hagreed.issued_eq,
      issued_push_of_building hds]
    rfl
  | @published v cs ds package i consent ys image w₁ s _ _ hcs _ hagreed hds hys =>
    rw [issued_append, issued_append, issued_append, issued_of_packaging hcs, hagreed.issued_eq,
      issued_push_of_building hds, List.nil_append, List.nil_append, List.nil_append]
    obtain ⟨hno, -, -⟩ | ⟨before, ds', s', -, rfl, hcs', rfl⟩ :=
      hys.pushes fun _ _ ↦ credentialsFound_ne_pushFailed
    · exact issued_eq_nil hno
    obtain ⟨rfl, -⟩ | ⟨done, reference, rest, a, -, -, rfl, -⟩ := hcs'.account
    · exact absurd rfl (hpushed _ image _ rfl)
    · exact absurd rfl (hfailed reference _)

/-- Whatever the tools, the files and the operator do, publishing says truly what it pushed: all of
the image's references when it ends well, and those before the one whose push failed otherwise. A
run that ends with another error, or with nothing published, has not tried to push. -/
theorem publish_account (env : Surroundings σ) (credentials : Option Path) (image : BuiltImage)
    (options : PublishOptions) (plan : Plan) (w : World σ) :
    let xs := exchanged (publish env credentials image options) w
    let r := result (publish env credentials image options) w
    let references := image.references.map ImageReference.text
    (∀ refs, r = .ok (.pushed refs) →
        refs = references ∧ issued "push" xs = refs.map pushCommand ∧
          ∀ c, .call c ∈ xs → c.command.isDocker "push" = true → c.result = .ok ⟨some 0⟩) ∧
      (∀ reference published, r = .error (.pushFailed reference published) →
        pushed xs = published ∧ published ++ [reference] <+: references ∧
          issued "push" xs = (published ++ [reference]).map pushCommand ∧
          (∃ before c, xs = before ++ [.call c] ∧ c.command = pushCommand reference ∧
            c.result ≠ .ok ⟨some 0⟩) ∧
          ∀ (τ : Type) (env' : Surroundings τ) request w₁,
            result (build env' request) w₁ = .ok image → reference ∉ published) ∧
      let ys := exchanged (run env credentials plan) w
      let s := result (run env credentials plan) w
      (∀ e, s = .error e → (∀ reference published, e ≠ .pushFailed reference published) →
        issued "push" ys = []) ∧
      ∀ o, s = .ok o →
        (o.image = .cancelled ∨ ∃ image, o.image = .built image .skipped ∨
          o.image = .built image .loginDeclined) → issued "push" ys = [] := by
  intro xs r references
  have hpublish := (ends_publish env credentials image options w).exchanged
  have hcourse := course_run env credentials plan w
  refine ⟨?_, ?_, ?_, ?_⟩
  · intro refs hr
    have hpublish := hpublish
    rw [show result _ w = Except.ok (PublishOutcome.pushed refs) from hr] at hpublish
    exact hpublish.of_pushed fun _ _ ↦ credentialsFound_ne_pushFailed
  · intro reference published hr
    rw [show result _ w = Except.error (ReleaseError.pushFailed reference published) from hr]
      at hpublish
    obtain ⟨hpushed, hbegin, hissued, hlast⟩ :=
      hpublish.of_pushFailed fun _ _ ↦ credentialsFound_ne_pushFailed
    refine ⟨hpushed, hbegin, hissued, hlast, fun τ env' request w₁ hbuilt ↦ ?_⟩
    have himage := eq_of_build hbuilt
    subst himage
    exact notMem_of_concat_prefix hbegin request.image.nodup_references
  · intro e he hother
    refine hcourse.issued_push_eq_nil ?_ ?_
    · intro o image' refs ho
      rw [he] at ho
      cases ho
    · intro reference published hfailed
      rw [he] at hfailed
      exact hother reference published (Except.error.inj hfailed)
  · intro o ho hunpublished
    refine hcourse.issued_push_eq_nil ?_ ?_
    · intro o' image' refs ho' hpushed
      rw [ho] at ho'
      cases ho'
      rw [hpushed] at hunpublished
      obtain himage | ⟨_, himage | himage⟩ := hunpublished <;> cases himage
    · intro reference published hfailed
      rw [ho] at hfailed
      cases hfailed

theorem publish_account_rehearsed :
    let image : BuiltImage := ⟨⟨"registry.example.com", "agent", "1.2.3"⟩,
      some ⟨"registry.example.com", "agent", "latest"⟩⟩
    let env := Rehearsal.surroundings [{ needed := ["agent:latest"], code := some 1 }] false
    let w : World Rehearsal.State := ⟨{}, {}, []⟩
    result (publish env none image ⟨false, true⟩) w = .error (.pushFailed
        "registry.example.com/agent:latest" ["registry.example.com/agent:1.2.3"]) ∧
      pushed (exchanged (publish env none image ⟨false, true⟩) w) =
        ["registry.example.com/agent:1.2.3"] := by
  intro image env w
  have hr : result (publish env none image ⟨false, true⟩) w = .error (.pushFailed
      "registry.example.com/agent:latest" ["registry.example.com/agent:1.2.3"]) := by
    have he : (match result (publish env none image ⟨false, true⟩) w with
        | .ok _ => none
        | .error e => some e) = some (.pushFailed "registry.example.com/agent:latest"
          ["registry.example.com/agent:1.2.3"]) := by decide +kernel
    cases h : result (publish env none image ⟨false, true⟩) w with
    | ok outcome =>
      rw [h] at he
      cases he
    | error e =>
      rw [h] at he
      rw [Option.some.inj he]
  obtain ⟨-, hfailed, -⟩ :=
    publish_account env none image ⟨false, true⟩ ⟨"1.2.3", none, none⟩ w
  obtain ⟨hpushed, -⟩ := hfailed _ _ hr
  exact ⟨hr, hpushed⟩

end Pipeline

end ReleaseTrain
