import ReleaseTrain.Cli
import ReleaseTrain.Proofs.Exchange
import ReleaseTrain.Rehearsal

namespace ReleaseTrain

open Session

variable {σ α : Type}

/-- The session ends with `e` and does no more than report: it runs no command, asks nothing and
leaves files and tools as they are. -/
structure TurnsAway (m : Session σ α) (e : ReleaseError) (w : World σ) : Prop where
  result : result m w = .error e
  exchanged : exchanged m w = []
  files : (after m w).files = w.files
  tools : (after m w).tools = w.tools

namespace TurnsAway

variable {β : Type} {m : Session σ α} {f : α → Session σ β} {e : ReleaseError} {w w' : World σ}

theorem of_error (h : m w = .error e w) : TurnsAway m e w where
  result := result_of_error h
  exchanged := by rw [Session.exchanged, after_of_error h, List.drop_length]
  files := by rw [after_of_error h]
  tools := by rw [after_of_error h]

theorem bind_of_error (h : TurnsAway m e w) : TurnsAway (m >>= f) e w := by
  have hm := eq_of_result_error h.result
  have hb := Session.bind_of_error (f := f) hm
  have hafter : after (m >>= f) w = after m w := after_of_error hb
  refine ⟨result_of_error hb, ?_, ?_, ?_⟩
  · rw [Session.exchanged, hafter]
    exact h.exchanged
  · rw [hafter, h.files]
  · rw [hafter, h.tools]

theorem bind_of_ok {a : α} (hm : m w = .ok a w') (hsilent : Silent m) (hfiles : w'.files = w.files)
    (htools : w'.tools = w.tools) (h : TurnsAway (f a) e w') : TurnsAway (m >>= f) e w := by
  have hb : (m >>= f) w = .error e (after (f a) w') :=
    (Session.bind_of_ok hm).trans (eq_of_result_error h.result)
  have hafter : after (m >>= f) w = after (f a) w' := after_of_error hb
  have hevents : exchanges w'.events = exchanges w.events := by
    have hw := hsilent w
    rwa [after_of_ok hm] at hw
  refine ⟨result_of_error hb, ?_, ?_, ?_⟩
  · rw [Session.exchanged, hafter, ← hevents]
    exact h.exchanged
  · rw [hafter, h.files, hfiles]
  · rw [hafter, h.tools, htools]

end TurnsAway

theorem Version.error_eq {input : String} {e : ReleaseError} (h : parse input = .error e) :
    e = .invalidVersion input := by
  unfold parse at h
  split at h
  · cases h
  · exact (Except.error.inj h).symm

namespace Platform

theorem checkSelector_eq_error {selector : String} {e : ReleaseError} (host : Host) :
    checkSelector selector = .error e ↔ resolve selector host = .error e := by
  unfold checkSelector resolve
  by_cases hall : selector = everyPlatform
  · simp [hall]
  · cases hid : ofId? selector <;> simp [hall]

theorem checkSelector_of_unknown {selector : String} (hall : selector ≠ everyPlatform)
    (hid : ofId? selector = none) : checkSelector selector = .error (unknown selector) := by
  simp [checkSelector, hall, hid]

end Platform

namespace Pipeline

theorem turnsAway_version (env : Surroundings σ) (credentials : Option Path) {plan : Plan}
    {e : ReleaseError} (h : Version.parse plan.version = .error e) (w : World σ) :
    TurnsAway (run env credentials plan) e w := by
  refine .bind_of_error (.bind_of_error (.of_error ?_))
  rw [h]
  rfl

theorem turnsAway_selector (env : Surroundings σ) (credentials : Option Path) {plan : Plan}
    {p : PackagePlan} {v : Version} {e : ReleaseError} (hv : Version.parse plan.version = .ok v)
    (hp : plan.package = some p) (h : Platform.checkSelector p.selector = .error e) (w : World σ) :
    TurnsAway (run env credentials plan) e w := by
  have hresolve := (Platform.checkSelector_eq_error p.settings.host).1 h
  have hpackage (w : World σ) : TurnsAway (packagePlanned env v plan.package) e w := by
    rw [hp]
    have hrun : TurnsAway (runPackage env p v) e w := by
      refine .bind_of_error (.of_error ?_)
      rw [hresolve]
      rfl
    change TurnsAway (some <$> runPackage env p v) e w
    rw [map_eq_pure_bind]
    exact hrun.bind_of_error
  refine .bind_of_error ?_
  unfold produce
  rw [hv]
  refine .bind_of_ok rfl (Silent.orThrow _) rfl rfl ?_
  exact .bind_of_ok rfl (Silent.report _) rfl rfl (hpackage _).bind_of_error

end Pipeline

namespace Cli

/-- The plan that the arguments make of a configuration, for a version that has been read. -/
def planned (fs : FileSystem) (a : Arguments) : Except ReleaseError Plan := do
  let base := baseDirectory fs
  let config ← Config.discover fs (a.config.map Path.mk) base
  Plan.ofArguments a config base

theorem prepare_eq (fs : FileSystem) (site : Site σ) (a : Arguments) :
    prepare fs site a = do
      let _ ← Version.parse a.version
      let plan ← planned fs a
      (plan.package.map (·.selector)).forM Platform.checkSelector
      (toolsOf plan).forM (requireTool fs site)
      return plan := by
  unfold prepare planned
  dsimp only
  cases hv : Version.parse a.version with
  | error e => rfl
  | ok v =>
  rw [bind_assoc]
  cases hconfig : Config.discover fs (a.config.map Path.mk) (baseDirectory fs) with
  | error e => rfl
  | ok config =>
  cases hplan : Plan.ofArguments a config (baseDirectory fs) with
  | error e => simp [hplan, bind, Except.bind]
  | ok plan =>
    cases hp : plan.package with
    | none =>
      simp only [hplan, hp, bind, Except.bind]
      rfl
    | some package =>
      simp only [hplan, hp, bind, Except.bind]
      rfl

theorem prepare_of_version {a : Arguments} {e : ReleaseError}
    (h : Version.parse a.version = .error e) (fs : FileSystem) (site : Site σ) :
    prepare fs site a = .error e := by
  rw [prepare_eq, h]
  rfl

theorem prepare_of_planned {fs : FileSystem} {a : Arguments} {v : Version} {e : ReleaseError}
    (hv : Version.parse a.version = .ok v) (h : planned fs a = .error e) (site : Site σ) :
    prepare fs site a = .error e := by
  rw [prepare_eq, hv, h]
  rfl

theorem prepare_of_selector {fs : FileSystem} {a : Arguments} {v : Version} {plan : Plan}
    {p : PackagePlan} {e : ReleaseError} (hv : Version.parse a.version = .ok v)
    (hplan : planned fs a = .ok plan) (hp : plan.package = some p)
    (h : Platform.checkSelector p.selector = .error e) (site : Site σ) :
    prepare fs site a = .error e := by
  rw [prepare_eq, hv, hplan]
  simp [hp, h, bind, Except.bind]

/-- A command line is turned away with `e`: the run that it starts does no more than end so, and
nothing but the error is shown. -/
structure Refused (site : Site σ) (words : List String) (a : Arguments) (fs : FileSystem)
    (tools : σ) (e : ReleaseError) : Prop where
  turnsAway : TurnsAway (execute site a) e ⟨fs, tools, []⟩
  ending : run site words fs tools = ⟨1, (console site a).showReports (Summary.ofError e), fs, tools⟩

theorem refused_of_prepare {site : Site σ} {words : List String} {a : Arguments} {fs : FileSystem}
    {e : ReleaseError} (hparse : CommandLine.parse (site.setting? registrySetting) words = .ok a)
    (hvalid : a.complaint? = none) (h : prepare fs site a = .error e) (tools : σ) :
    Refused site words a fs tools e := by
  have hexecute : execute site a ⟨fs, tools, []⟩ = .error e ⟨fs, tools, []⟩ := by
    refine (bind_of_ok (show files _ = .ok fs ⟨fs, tools, []⟩ from rfl)).trans ?_
    rw [h]
    rfl
  refine ⟨.of_error hexecute, ?_⟩
  unfold run
  rw [hparse]
  dsimp only [runArguments]
  rw [hvalid, hexecute]
  rfl

/-- A wrong input is found before anything starts, with the files and the tools untouched. On a
command line a version that cannot be read comes before all else, whatever is configured; then comes
what is wrong with the configuration or the plan, then a selector that names no platform. None of it
depends on which tools are installed. A run that is started with such a plan by other means does no
more either, whatever it was to clean. -/
theorem input_gate (site : Site σ) (words : List String) (a : Arguments) (fs : FileSystem)
    (tools : σ) (hparse : CommandLine.parse (site.setting? registrySetting) words = .ok a)
    (hvalid : a.complaint? = none) :
    (∀ e, Version.parse a.version = .error e →
        e = .invalidVersion a.version ∧ Refused site words a fs tools e) ∧
      (∀ v, Version.parse a.version = .ok v →
        (∀ e, planned fs a = .error e → Refused site words a fs tools e) ∧
        ∀ plan p, planned fs a = .ok plan → plan.package = some p →
          p.selector ≠ everyPlatform → Platform.ofId? p.selector = none →
            Refused site words a fs tools
              (.unknownPlatform p.selector Platform.validSelectors)) ∧
      ∀ (env : Surroundings σ) credentials (plan : Plan) w,
        (∀ e, Version.parse plan.version = .error e →
          e = .invalidVersion plan.version ∧ TurnsAway (Pipeline.run env credentials plan) e w) ∧
        ∀ v p, Version.parse plan.version = .ok v → plan.package = some p →
          p.selector ≠ everyPlatform → Platform.ofId? p.selector = none →
            TurnsAway (Pipeline.run env credentials plan)
              (.unknownPlatform p.selector Platform.validSelectors) w := by
  refine ⟨?_, ?_, ?_⟩
  · intro e hv
    exact ⟨Version.error_eq hv,
      refused_of_prepare hparse hvalid (prepare_of_version hv fs site) tools⟩
  · intro v hv
    refine ⟨?_, ?_⟩
    · intro e hplan
      exact refused_of_prepare hparse hvalid (prepare_of_planned hv hplan site) tools
    · intro plan p hplan hp hall hid
      have hselector := Platform.checkSelector_of_unknown hall hid
      exact refused_of_prepare hparse hvalid (prepare_of_selector hv hplan hp hselector site) tools
  · intro env credentials plan w
    refine ⟨?_, ?_⟩
    · intro e hv
      exact ⟨Version.error_eq hv, Pipeline.turnsAway_version env credentials hv w⟩
    · intro v p hv hp hall hid
      have hselector := Platform.checkSelector_of_unknown hall hid
      exact Pipeline.turnsAway_selector env credentials hv hp hselector w

theorem input_gate_rehearsed :
    let site : Site Rehearsal.State := ⟨Rehearsal.surroundings [] false, fun _ ↦ none, {}, 0⟩
    let words := ["package", "--version", "1.2"]
    let a : Arguments := ⟨"1.2", .package {}, none, false, false⟩
    let s := { Settings.ofConfig {} ⟨"/"⟩ with clean := true }
    let w : World Rehearsal.State := ⟨{}, {}, []⟩
    CommandLine.parse (site.setting? registrySetting) words = .ok a ∧ a.complaint? = none ∧
      Refused site words a {} {} (.invalidVersion "1.2") ∧
      TurnsAway (Pipeline.run site.surroundings none ⟨"1.2.3", some ⟨"beos", s⟩, none⟩)
        (.unknownPlatform "beos" Platform.validSelectors) w := by
  intro site words a s w
  have hparse : CommandLine.parse (site.setting? registrySetting) words = .ok a := rfl
  have hvalid : a.complaint? = none := rfl
  have hversion : Version.parse "1.2" = .error (.invalidVersion "1.2") := rfl
  have hread : Version.parse "1.2.3" = .ok ⟨"1", "2", "3", none⟩ := rfl
  obtain ⟨hrefused, -, hpipeline⟩ := input_gate site words a {} {} hparse hvalid
  obtain ⟨-, hselector⟩ :=
    hpipeline site.surroundings none ⟨"1.2.3", some ⟨"beos", s⟩, none⟩ w
  refine ⟨hparse, hvalid, (hrefused _ hversion).2, ?_⟩
  exact hselector _ ⟨"beos", s⟩ hread rfl (by decide) (by decide)

end Cli

end ReleaseTrain
