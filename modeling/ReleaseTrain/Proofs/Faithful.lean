import ReleaseTrain.Image.Builder
import ReleaseTrain.Image.Publish
import ReleaseTrain.Proofs.Exchange

namespace ReleaseTrain

open Session

variable {σ α β : Type}

namespace Session

theorem Ends.self {m : Session σ α} {w : World σ}
    {Q : List Exchange → Except ReleaseError α → World σ → Prop} (h : Ends m w Q) :
    Ends m w fun xs r w' ↦ xs = Session.exchanged m w ∧ r = result m w ∧ w' = after m w ∧
      Q xs r w' := by
  have hQ := h.exchanged
  obtain ⟨xs, hxs, -⟩ := h
  refine ⟨Session.exchanged m w, ?_, rfl, rfl, rfl, hQ⟩
  rw [Session.exchanged, hxs, List.drop_left]

/-- What the session does depends on the files and the tools alone. To the record it only adds, and
every answer that it puts there is the operator's. -/
def Faithful (env : Surroundings σ) (m : Session σ α) : Prop :=
  ∀ files tools, ∃ r files' tools' new,
    (∀ q a, .asked q a ∈ exchanges new → ∃ t, (env.answer q t).1 = a) ∧
      ∀ events, result m ⟨files, tools, events⟩ = r ∧
        after m ⟨files, tools, events⟩ = ⟨files', tools', events ++ new⟩

namespace Faithful

variable {env : Surroundings σ} {m : Session σ α} {f : α → Session σ β}

theorem pure (a : α) : Faithful env (Pure.pure a : Session σ α) :=
  fun files tools ↦ ⟨.ok a, files, tools, [], by simp, fun events ↦
    ⟨rfl, congrArg (World.mk files tools) (List.append_nil events).symm⟩⟩

theorem throw (e : ReleaseError) : Faithful env (MonadExcept.throw e : Session σ α) :=
  fun files tools ↦ ⟨.error e, files, tools, [], by simp, fun events ↦
    ⟨rfl, congrArg (World.mk files tools) (List.append_nil events).symm⟩⟩

theorem bind (hm : Faithful env m) (hf : ∀ a, Faithful env (f a)) : Faithful env (m >>= f) := by
  intro files tools
  obtain ⟨r, files₁, tools₁, new, hnew, h⟩ := hm files tools
  cases r with
  | error e =>
    refine ⟨.error e, files₁, tools₁, new, hnew, fun events ↦ ?_⟩
    obtain ⟨hr, hw⟩ := h events
    have hb := bind_of_error (f := f) (eq_of_result_error hr)
    exact ⟨result_of_error hb, (after_of_error hb).trans hw⟩
  | ok a =>
    obtain ⟨r, files₂, tools₂, new', hnew', h'⟩ := hf a files₁ tools₁
    refine ⟨r, files₂, tools₂, new ++ new', ?_, fun events ↦ ?_⟩
    · intro q b hb
      rw [exchanges_append, List.mem_append] at hb
      exact hb.elim (hnew q b) (hnew' q b)
    · obtain ⟨hr, hw⟩ := h events
      have hb := bind_of_ok (f := f) (eq_of_result_ok hr)
      rw [hw] at hb
      rw [result, after, hb, ← List.append_assoc]
      exact h' (events ++ new)

theorem record_reported (reports : List Report) :
    Faithful env (record (reports.map .reported) : Session σ Unit) :=
  fun files tools ↦ ⟨.ok (), files, tools, reports.map .reported, by simp, fun _ ↦ ⟨rfl, rfl⟩⟩

theorem report (r : Report) : Faithful env (Session.report r) := record_reported [r]

theorem files : Faithful env Session.files :=
  fun files tools ↦ ⟨.ok files, files, tools, [], by simp, fun events ↦
    ⟨rfl, congrArg (World.mk files tools) (List.append_nil events).symm⟩⟩

theorem orThrow (x : Except ReleaseError α) : Faithful env (Session.orThrow x) := by
  cases x with
  | ok a => exact pure a
  | error e => exact throw e

theorem attempt (mode : Mode) (command : Invocation) :
    Faithful env (Session.attempt env mode command) := by
  intro files tools
  cases mode with
  | captured =>
    let x := env.execute .captured command files tools
    refine ⟨.ok x.result, x.files, x.tools,
      .ran .captured command x.result :: x.reports.map .reported, ?_, fun _ ↦ ⟨rfl, rfl⟩⟩
    intro q a h
    simp [exchanges, Exchange.ofEvent?, List.filterMap_map, Function.comp_def] at h
  | interactive =>
    let x := env.execute .interactive command files tools
    refine ⟨.ok x.result, x.files, x.tools,
      [.ran .interactive command x.result, .printed x.printed], ?_, fun _ ↦ ⟨rfl, rfl⟩⟩
    intro q a h
    simp [exchanges, Exchange.ofEvent?] at h

theorem confirm (question : String) : Faithful env (Session.confirm env question) := by
  intro files tools
  refine ⟨.ok (env.answer question tools).1, files, (env.answer question tools).2,
    [.asked question (env.answer question tools).1], ?_, fun _ ↦ ⟨rfl, rfl⟩⟩
  intro q a h
  simp only [exchanges, List.filterMap_cons, List.filterMap_nil, Exchange.ofEvent?,
    List.mem_singleton, Exchange.asked.injEq] at h
  obtain ⟨rfl, rfl⟩ := h
  exact ⟨tools, rfl⟩

theorem demand (command : Invocation) (refusal : Outcome → ReleaseError) :
    Faithful env (Session.demand env command refusal) := by
  have hrun : Faithful env (Session.run env command) := by
    refine (attempt .captured command).bind fun r ↦ ?_
    cases r with
    | ok outcome => exact pure outcome
    | error failure => exact throw failure
  refine hrun.bind fun outcome ↦ ?_
  cases outcome.success with
  | true => exact pure ()
  | false => exact throw _

/-- Two runs of the session from the same files and tools come to the same. -/
theorem agree (hm : Faithful env m) {w w' : World σ} (hfiles : w.files = w'.files)
    (htools : w.tools = w'.tools) :
    result m w = result m w' ∧ exchanged m w = exchanged m w' ∧
      (after m w).files = (after m w').files := by
  obtain ⟨files, tools, events⟩ := w
  obtain ⟨files', tools', events'⟩ := w'
  dsimp only at hfiles htools
  subst hfiles htools
  obtain ⟨r, files₁, tools₁, new, -, h⟩ := hm files tools
  obtain ⟨hr, hw⟩ := h events
  obtain ⟨hr', hw'⟩ := h events'
  refine ⟨hr.trans hr'.symm, ?_, ?_⟩
  · rw [exchanged, exchanged, hw, hw', exchanges_append, exchanges_append, List.drop_left,
      List.drop_left]
  · rw [hw, hw']

theorem exchanged_answer (hm : Faithful env m) {w : World σ} {q : String} {a : Bool}
    (h : .asked q a ∈ exchanged m w) : ∃ t, (env.answer q t).1 = a := by
  obtain ⟨files, tools, events⟩ := w
  obtain ⟨r, files₁, tools₁, new, hnew, hw⟩ := hm files tools
  rw [exchanged, (hw events).2, exchanges_append, List.drop_left] at h
  exact hnew q a h

end Faithful

end Session

namespace Image

variable (env : Surroundings σ)

theorem faithful_checkDaemon : Faithful env (checkDaemon env) := by
  refine (Faithful.attempt .captured infoCommand).bind fun r ↦ ?_
  cases r with
  | error cause => exact .throw _
  | ok outcome =>
    dsimp only
    cases outcome.success with
    | true => exact .pure ()
    | false => exact .throw _

theorem faithful_build (request : BuildRequest) : Faithful env (build env request) := by
  refine (Faithful.report _).bind fun _ ↦ (Faithful.demand _ _).bind fun _ ↦
    (Faithful.report _).bind fun _ ↦ ?_
  cases request.image.latestAlias with
  | none => exact .pure _
  | some latest =>
    have htag : Faithful env (tag env request.image latest) :=
      (Faithful.demand _ _).bind fun _ ↦ .report _
    exact htag.bind fun _ ↦ .pure _

end Image

namespace Publish

variable (env : Surroundings σ) (image : BuiltImage)

theorem faithful_pushOne (published : List String) (reference : String) :
    Faithful env (pushOne env published reference) := by
  refine (Faithful.report _).bind fun _ ↦ (Faithful.attempt _ _).bind fun r ↦ ?_
  cases r with
  | error cause => exact (Faithful.report _).bind fun _ ↦ (Faithful.throw _).bind fun _ ↦ .report _
  | ok outcome =>
    dsimp only
    cases outcome.success with
    | true => exact .report _
    | false => exact (Faithful.throw _).bind fun _ ↦ .report _

theorem faithful_pushEach (published references : List String) :
    Faithful env (pushEach env published references) := by
  induction references generalizing published with
  | nil => exact .pure _
  | cons reference references ih =>
    exact (faithful_pushOne env published reference).bind fun _ ↦ ih _

theorem faithful_push : Faithful env (push env image) :=
  (faithful_pushEach env [] _).bind fun _ ↦ .pure _

theorem faithful_login : Faithful env (login env image) := by
  refine (Faithful.attempt _ _).bind fun r ↦ ?_
  dsimp only
  cases r.toOption.any Outcome.success with
  | true => exact .report _
  | false => exact (Faithful.throw _).bind fun _ ↦ .report _

theorem faithful_declined : Faithful env (declined image) := by
  refine (Faithful.report _).bind fun _ ↦ ?_
  have hrecord : Faithful env (record ((image.references.map fun r ↦
      Report.detail s!"docker push {r.text}").map .reported)) := .record_reported _
  rw [List.map_map] at hrecord
  exact hrecord.bind fun _ ↦ .pure _

theorem faithful_pushAuthenticated (credentials : Option Path) :
    Faithful env (pushAuthenticated env credentials image) := by
  have hstate : Faithful env (authState env credentials image) :=
    Faithful.files.bind fun _ ↦ (Faithful.orThrow _).bind fun _ ↦ .pure _
  refine hstate.bind fun state ↦ ?_
  cases state with
  | authenticated => exact (Faithful.report _).bind fun _ ↦ faithful_push env image
  | nonInteractive => exact .throw _
  | promptAvailable =>
    refine (Faithful.confirm _).bind fun answer ↦ ?_
    cases answer with
    | true => exact (faithful_login env image).bind fun _ ↦ faithful_push env image
    | false => exact faithful_declined env image

theorem faithful_publish (credentials : Option Path) (options : PublishOptions) :
    Faithful env (publish env credentials image options) := by
  obtain ⟨noPush, unchecked⟩ := options
  cases noPush with
  | true => exact (Faithful.report _).bind fun _ ↦ .pure _
  | false =>
    cases unchecked with
    | true => exact (Faithful.report _).bind fun _ ↦ faithful_push env image
    | false => exact faithful_pushAuthenticated env image credentials

end Publish

end ReleaseTrain
