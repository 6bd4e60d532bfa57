import ReleaseTrain.Proofs.Blame
import ReleaseTrain.Proofs.BuildGate
import ReleaseTrain.Proofs.Interruption

namespace ReleaseTrain

open FileSystem Session Settings

variable {σ : Type}

section ImageStage

variable {env : Surroundings σ} {R : FileSystem → FileSystem → Prop} [IsPreorder FileSystem R]

namespace Image

theorem evolves_checkDaemon
    (h : ∀ fs tools, R fs (env.execute .captured infoCommand fs tools).files) :
    Evolves R (checkDaemon env) := by
  refine (Evolves.attempt h).bind fun r ↦ ?_
  cases r with
  | error cause => exact .throw _
  | ok outcome =>
    dsimp only
    cases outcome.success with
    | true => exact .pure ()
    | false => exact .throw _

theorem evolves_build {request : BuildRequest} (h : ∀ step ∈ buildCommands request,
      ∀ fs tools, R fs (env.execute step.1 step.2 fs tools).files) :
    Evolves R (build env request) := by
  refine (Evolves.report _).bind fun _ ↦
    (Evolves.demand (h (.captured, request.command) (by simp [buildCommands]))).bind fun _ ↦
      (Evolves.report _).bind fun _ ↦ ?_
  cases hlatest : request.image.latestAlias with
  | none => exact .pure _
  | some latest =>
    have hstep : (.captured, tagCommand request.image latest) ∈ buildCommands request := by
      simp [buildCommands, hlatest]
    have htag : Evolves R (tag env request.image latest) :=
      (Evolves.demand (h _ hstep)).bind fun _ ↦ .report _
    exact htag.bind fun _ ↦ .pure _

end Image

namespace Publish

variable {image : BuiltImage}

theorem evolves_pushOne {reference : String} (published : List String)
    (h : ∀ fs tools, R fs (env.execute .captured (pushCommand reference) fs tools).files) :
    Evolves R (pushOne env published reference) := by
  refine (Evolves.report _).bind fun _ ↦ (Evolves.attempt h).bind fun r ↦ ?_
  cases r with
  | error cause => exact (Evolves.report _).bind fun _ ↦ (Evolves.throw _).bind fun _ ↦ .report _
  | ok outcome =>
    dsimp only
    cases outcome.success with
    | true => exact .report _
    | false => exact (Evolves.throw _).bind fun _ ↦ .report _

theorem evolves_pushEach {references : List String} (published : List String)
    (h : ∀ reference ∈ references, ∀ fs tools,
      R fs (env.execute .captured (pushCommand reference) fs tools).files) :
    Evolves R (pushEach env published references) := by
  induction references generalizing published with
  | nil => exact .pure _
  | cons reference references ih =>
    refine (evolves_pushOne published (h reference List.mem_cons_self)).bind fun _ ↦ ?_
    exact ih _ fun r hr ↦ h r (List.mem_cons_of_mem reference hr)

theorem evolves_declined : Evolves R (declined image : Session σ PublishOutcome) :=
  (Evolves.report _).bind fun _ ↦ (Evolves.record _).bind fun _ ↦ .pure _

theorem evolves_publish {options : PublishOptions} (credentials : Option Path)
    (h : ∀ agreed, ∀ step ∈ commands image options agreed,
      ∀ fs tools, R fs (env.execute step.1 step.2 fs tools).files) :
    Evolves R (publish env credentials image options) := by
  obtain ⟨noPush, unchecked⟩ := options
  cases noPush with
  | true => exact (Evolves.report _).bind fun _ ↦ .pure _
  | false =>
    have hpush : Evolves R (push env image) := by
      refine (evolves_pushEach [] fun reference href ↦ ?_).bind fun _ ↦ .pure _
      obtain ⟨r, hr, rfl⟩ := List.mem_map.1 href
      exact h none (.captured, pushCommand r.text) (by
        simp [commands_eq_references]
        exact ⟨r, hr, rfl⟩)
    have hlogin : Evolves R (login env image) := by
      refine (Evolves.attempt (h (some true) (.interactive, loginCommand _)
        (by simp [commands]))).bind fun r ↦ ?_
      dsimp only
      cases r.toOption.any Outcome.success with
      | true => exact .report _
      | false => exact (Evolves.throw _).bind fun _ ↦ .report _
    cases unchecked with
    | true => exact (Evolves.report _).bind fun _ ↦ hpush
    | false =>
      have hstate : Evolves R (authState env credentials image) :=
        Evolves.files.bind fun _ ↦ (Evolves.orThrow _).bind fun _ ↦ .pure _
      refine hstate.bind fun state ↦ ?_
      cases state with
      | authenticated => exact (Evolves.report _).bind fun _ ↦ hpush
      | nonInteractive => exact .throw _
      | promptAvailable =>
        refine (Evolves.confirm env _).bind fun answer ↦ ?_
        cases answer with
        | true => exact hlogin.bind fun _ ↦ hpush
        | false => exact evolves_declined

end Publish

namespace Pipeline

theorem evolves_proceed {i : ImagePlan} {v : Version} (credentials : Option Path)
    (h : ∀ answer, ∀ step ∈ i.commands v answer,
      ∀ fs tools, R fs (env.execute step.1 step.2 fs tools).files) :
    Evolves R (proceed env credentials i v) := by
  have hbuild : ∀ step ∈ Image.buildCommands (i.request v),
      ∀ fs tools, R fs (env.execute step.1 step.2 fs tools).files := by
    intro step hstep
    refine h (fun _ ↦ none) step ?_
    simp [ImagePlan.commands_eq, hstep]
  have hpublish (agreed : Option Bool) : ∀ step ∈ Publish.commands
      ⟨i.reference v, (i.reference v).latestAlias⟩ i.publish agreed,
      ∀ fs tools, R fs (env.execute step.1 step.2 fs tools).files := by
    intro step hstep
    refine h (fun q ↦ if q = buildQuestion then none else agreed) step ?_
    simp [ImagePlan.commands_eq, loginQuestion_ne_buildQuestion, hstep]
  unfold proceed
  rw [← bind_assoc]
  have himage : Evolves R (Image.checkDaemon env >>= fun _ ↦ Image.build env (i.request v)) :=
    (Image.evolves_checkDaemon (hbuild _ List.mem_cons_self)).bind fun _ ↦
      Image.evolves_build hbuild
  refine himage.bind_ok fun image w w' hw ↦ ?_
  obtain ⟨cs, -, hcs⟩ := (Image.ends_build env (i.request v) w).exchanged
  rw [result_of_ok hw] at hcs
  obtain rfl := hcs.image_eq
  exact (Evolves.report _).bind fun _ ↦
    (Publish.evolves_publish credentials hpublish).bind fun _ ↦ .pure _

theorem evolves_confirmBuild (env : Surroundings σ) (assumeYes : Bool) :
    Evolves R (confirmBuild env assumeYes) := by
  cases assumeYes with
  | true => exact .pure true
  | false => exact .confirm env _

theorem evolves_sayCancelled (env : Surroundings σ) : Evolves R (sayCancelled env) := by
  unfold sayCancelled
  cases env.interactive with
  | true => exact .report _
  | false => exact (Evolves.report _).bind fun _ ↦ .report _

theorem evolves_run {i : ImagePlan} {v : Version} {version : String} {package : Option PackagePlan}
    {made : Option PackageReport} {w w₁ : World σ} (credentials : Option Path)
    (h : ∀ answer, ∀ step ∈ i.commands v answer,
      ∀ fs tools, R fs (env.execute step.1 step.2 fs tools).files)
    (hprepare : prepare env version package w = .ok (v, made) w₁) :
    R w₁.files (after (run env credentials ⟨version, package, some i⟩) w).files := by
  have hrest : Evolves R (do
      reportAll (i.overview v)
      if ← confirmBuild env i.assumeYes then
        (fun stage ↦ ⟨v, made, stage⟩) <$> proceed env credentials i v
      else
        sayCancelled env
        return ⟨v, made, .cancelled⟩ : Session σ RunOutcome) := by
    refine (Evolves.record _).bind fun _ ↦
      (evolves_confirmBuild env i.assumeYes).bind fun agreed ↦ ?_
    cases agreed with
    | true =>
      rw [if_pos rfl, map_eq_pure_bind]
      exact (evolves_proceed credentials h).bind fun _ ↦ .pure _
    | false => exact (evolves_sayCancelled env).bind fun _ ↦ .pure _
  rw [run_eq, after, bind_of_ok hprepare]
  exact hrest w₁

end Pipeline

end ImageStage

namespace Settings

variable {s : Settings} {cwd : Location} {fs fs' fs'' : FileSystem} {keep : Location → Prop}

/-- From files with no link near the roots others of that kind are made, and what stands in the
places to keep is as it was. -/
structure Spares (s : Settings) (cwd : Location) (keep : Location → Prop) (fs fs' : FileSystem) :
    Prop where
  ready : s.Ready cwd fs → s.Ready cwd fs'
  same : s.Ready cwd fs → ∀ l, keep l → fs'.get? l = fs.get? l

instance : IsPreorder FileSystem (s.Spares cwd keep) where
  refl _ := ⟨id, fun _ _ _ ↦ rfl⟩
  trans _ _ _ h h' := ⟨h'.ready ∘ h.ready, fun hready l hl ↦
    (h'.same (h.ready hready) l hl).trans (h.same hready l hl)⟩

theorem Spares.of_within {o : Location} (hkeep : ∀ l, keep l → Apart o l)
    (h : s.Ready cwd fs → Within o fs fs') : s.Spares cwd keep fs fs' :=
  ⟨fun hready ↦ hready.within (h hready), fun hready l hl ↦
    (h hready).get?_of_apart (hkeep l hl)⟩

def Same (keep : Location → Prop) (fs fs' : FileSystem) : Prop :=
  ∀ l, keep l → fs'.get? l = fs.get? l

instance : IsPreorder FileSystem (Same keep) where
  refl _ _ _ := rfl
  trans _ _ _ h h' l hl := (h' l hl).trans (h l hl)

/-- The change makes no link and leaves the place of the version's marker alone; elsewhere files and
directories may come, change and go. -/
structure SparesMarker (s : Settings) (cwd : Location) (fs fs' : FileSystem) : Prop where
  wellFormed : fs'.WellFormed
  workingDirectory : fs'.workingDirectory = fs.workingDirectory
  links : ∀ m target, fs'.get? m = some (.link target) → fs.get? m = some (.link target)
  marker : fs'.get? (s.markerPlace cwd) = fs.get? (s.markerPlace cwd)

/-- No command that packages a platform makes a link or touches the version's marker. -/
def Careful (s : Settings) (cwd : Location) (v : Version) (env : Surroundings σ) : Prop :=
  ∀ p, ∀ step ∈ Packaging.steps s v p, ∀ fs tools, s.Ready cwd fs →
    s.SparesMarker cwd fs (env.execute step.1 step.2 fs tools).files

theorem SparesMarker.of_within {o : Location} (hready : s.Ready cwd fs)
    (hapart : Apart o (s.markerPlace cwd)) (h : Within o fs fs') : s.SparesMarker cwd fs fs' :=
  ⟨h.wellFormed hready.wellFormed, h.workingDirectory, h.links, h.get?_of_apart hapart⟩

theorem Confined.within {v : Version} {env : Surroundings σ} (h : s.Confined cwd v env)
    {p : Platform} {step : Mode × Invocation} (hstep : step ∈ Packaging.steps s v p) :
    ∃ r ∈ s.roots, ∀ fs tools, s.Ready cwd fs →
      Within (home cwd r p) fs (env.execute step.1 step.2 fs tools).files := by
  unfold Packaging.steps at hstep
  rcases List.mem_cons.1 hstep with rfl | hstep
  · exact ⟨_, s.companionRoot_mem, fun fs tools hready ↦ h.companion p fs tools hready⟩
  rcases List.mem_append.1 hstep with hditto | hagent
  · split at hditto
    · obtain rfl := List.mem_singleton.1 hditto
      exact ⟨_, s.stagingRoot_mem, fun fs tools hready ↦
        (h.ditto p fs tools hready).mono (s.home_prefix_archivePlace cwd p)⟩
    · cases hditto
  · obtain rfl := List.mem_singleton.1 hagent
    exact ⟨_, s.outputRoot_mem, fun fs tools hready ↦ h.agent p fs tools hready⟩

/-- Tools that write in the directories that they are told to write to are careful. -/
theorem Confined.careful {v : Version} {env : Surroundings σ} (hsep : s.Separate cwd)
    (h : s.Confined cwd v env) : s.Careful cwd v env := by
  intro p step hstep fs tools hready
  obtain ⟨r, hr, hwithin⟩ := h.within hstep
  have hwithin := hwithin fs tools hready
  exact ⟨hwithin.wellFormed hready.wellFormed, hwithin.workingDirectory, hwithin.links,
    hwithin.get?_of_apart (hsep.apart_marker hr p).symm⟩

def Marked (s : Settings) (cwd : Location) (v : Version) (fs : FileSystem) : Prop :=
  ∃ mode, fs.get? (s.markerPlace cwd) = some (.file (.bytes (Text.encode v.text)) mode)

end Settings

namespace Packaging

variable {env : Surroundings σ} {s : Settings} {cwd : Location} {v : Version} {p : Platform}
  {ps : List Platform} {w w' cleaned : World σ} {e : ReleaseError}

theorem covers_of_careful (hsep : s.Separate cwd) (hcareful : s.Careful cwd v env) (p : Platform) :
    Covers (s.Spares cwd (· = s.markerPlace cwd)) env s cwd v p where
  files r hr fs fs' h := by
    refine .of_within ?_ h
    rintro l rfl
    exact (hsep.apart_marker hr p).symm
  commands step hstep fs tools := by
    refine ⟨fun hready ↦ ?_, ?_⟩
    · have hspared := hcareful p step hstep fs tools hready
      exact hready.mono hspared.wellFormed hspared.workingDirectory hspared.links
    · rintro hready l rfl
      exact (hcareful p step hstep fs tools hready).marker

theorem marker_of_packageEach (hsep : s.Separate cwd) (hcareful : s.Careful cwd v env)
    (hready : s.Ready cwd w.files) (ps : List Platform) :
    s.Ready cwd (after (packageEach env s v ps) w).files ∧
      (after (packageEach env s v ps) w).files.get? (s.markerPlace cwd) =
        w.files.get? (s.markerPlace cwd) := by
  have hevolves : Evolves (s.Spares cwd (· = s.markerPlace cwd)) (packageEach env s v ps) :=
    evolves_packageEach hsep fun p _ ↦ covers_of_careful hsep hcareful p
  exact ⟨(hevolves w).ready hready, (hevolves w).same hready _ rfl⟩

theorem marked_of_markVersion (hsep : s.Separate cwd) (hready : s.Ready cwd w.files)
    (h : markVersion s v w = .ok () w') : s.Marked cwd v w'.files := by
  obtain ⟨htop, grown, mode, -, hfiles, -⟩ := markVersion_plain hsep hready h
  refine ⟨mode, ?_⟩
  rw [hfiles, get?_set_self _ htop]

theorem grown_of_markVersion_error (hsep : s.Separate cwd) (hready : s.Ready cwd w.files)
    (h : markVersion s v w = .error e w') :
    Grown (placeOf cwd s.outputRoot.bytes) w.files w'.files := by
  have hgrown := grown_markerParents hsep hready
  obtain hwrite | ⟨_, w₁, -, hreport⟩ := bind_eq_error.1 h
  · obtain hparents | ⟨_, w₂, hparents, hwrite⟩ := bind_eq_error.1 hwrite
    · rwa [after_of_error hparents] at hgrown
    · obtain ⟨failure, hwrite⟩ := onFiles_error hwrite
      rw [write_error hwrite]
      rwa [after_of_ok hparents] at hgrown
  · cases hreport

theorem marker_of_markVersion_error (hsep : s.Separate cwd) (hready : s.Ready cwd w.files)
    (h : markVersion s v w = .error e w') :
    w'.files.get? (s.markerPlace cwd) = w.files.get? (s.markerPlace cwd) := by
  refine ((grown_of_markVersion_error hsep hready h).get? _).resolve_right fun hmade ↦ ?_
  have hlength := hmade.1.length_le
  rw [markerPlace_eq, List.length_append, List.length_singleton] at hlength
  omega

theorem outputPlace_ne_nil (hsep : s.Separate cwd) : placeOf cwd s.outputRoot.bytes ≠ [] := by
  intro hnil
  refine hsep.apart_staging.1 ?_
  rw [hnil]
  exact List.nil_prefix

theorem removed_output (hsep : s.Separate cwd) (hready : s.Ready cwd w.files)
    (h : Session.removeDirectory s.outputRoot w = .ok () w') :
    w'.files = w.files.removeTree (placeOf cwd s.outputRoot.bytes) := by
  have hlast : lastStep? s.outputRoot.bytes ≠ some stepUp := fun hlast ↦
    hsep.no_up s.outputRoot s.outputRoot_mem (stepUp_mem_iff.2 (List.mem_of_getLast? hlast))
  exact removeDirectory_plain hready.wellFormed (hready.names (hsep.names_root s.outputRoot_mem))
    (hready.direct s.outputRoot_mem (List.prefix_refl _)) hsep.outputRoot_ne
    (outputPlace_ne_nil hsep) hlast (onFiles_ok h).1

theorem output_of_clean (hsep : s.Separate cwd) (hready : s.Ready cwd w.files)
    (h : clean s w = .ok () w') {l : Location} (hl : placeOf cwd s.outputRoot.bytes <+: l) :
    w'.files.get? l = none := by
  rw [clean_eq] at h
  obtain ⟨_, w₁, hreport, h⟩ := bind_eq_ok.1 h
  obtain ⟨_, w₂, houtput, hothers⟩ := bind_eq_ok.1 h
  rw [← (report_eq_ok hreport).1] at hready
  refine ((shrinks_cleanOthers s).of_ok hothers).1.none ?_
  rw [removed_output hsep hready houtput]
  exact get?_removeTree_beneath (outputPlace_ne_nil hsep) hl

/-- Wherever packaging ends, a later run can start. -/
theorem ready_of_package (hsep : s.Separate cwd) (hcareful : s.Careful cwd v env)
    (hready : s.Ready cwd w.files) (ps : List Platform) :
    s.Ready cwd (after (package env s ps v) w).files := by
  have hclean : Evolves (s.Spares cwd fun _ ↦ False) (cleanIf s : Session σ Unit) :=
    fun w ↦ ⟨fun hready ↦ hready.shrunk (shrinks_cleanIf s w).1, fun _ _ ↦ False.elim⟩
  have heach : Evolves (s.Spares cwd fun _ ↦ False) (packageEach env s v ps) :=
    (evolves_packageEach hsep fun p _ ↦ covers_of_careful hsep hcareful p).mono
      fun fs fs' h ↦ ⟨h.ready, fun _ _ ↦ False.elim⟩
  have hmark : Evolves (s.Spares cwd fun _ ↦ False) (markVersion s v : Session σ Unit) := by
    refine fun w ↦ ⟨fun hready ↦ ?_, fun _ _ ↦ False.elim⟩
    cases hmark : markVersion s v w with
    | error e w' =>
      rw [after_of_error hmark]
      exact hready.within (.of_grown (grown_of_markVersion_error hsep hready hmark))
    | ok u marked =>
      rw [after_of_ok hmark]
      exact hready.within (markVersion_within hsep hready hmark)
  rw [package_eq]
  exact ((hclean.bind fun _ ↦ heach.bind fun _ ↦ hmark.bind fun _ ↦ .pure _) w).ready hready

theorem package_after_platforms {artifacts : List Artifact} {packaged : World σ}
    (hclean : cleanIf s w = .ok () cleaned)
    (heach : packageEach env s v ps cleaned = .ok artifacts packaged) :
    package env s ps v w =
      (do
        markVersion s v
        return (⟨v, artifacts, s.versionMarker⟩ : PackageReport)) packaged := by
  rw [package_eq]
  exact (bind_of_ok hclean).trans (bind_of_ok heach)

theorem marker_of_package_error (hsep : s.Separate cwd) (hcareful : s.Careful cwd v env)
    (hready : s.Ready cwd w.files) (hclean : cleanIf s w = .ok () cleaned)
    (h : package env s ps v w = .error e w') :
    w'.files.get? (s.markerPlace cwd) = cleaned.files.get? (s.markerPlace cwd) := by
  have hcleaned := hready.shrunk (shrunk_of_cleanIf hclean).1
  obtain ⟨hpackaged, hmarker⟩ := marker_of_packageEach hsep hcareful hcleaned ps
  rw [package_eq] at h
  have h := (bind_of_ok hclean).symm.trans h
  obtain heach | ⟨artifacts, packaged, heach, h⟩ := bind_eq_error.1 h
  · rwa [after_of_error heach] at hmarker
  · rw [after_of_ok heach] at hpackaged hmarker
    obtain hmark | ⟨_, marked, -, hreturn⟩ := bind_eq_error.1 h
    · exact (marker_of_markVersion_error hsep hpackaged hmark).trans hmarker
    · cases hreturn

theorem marked_of_package {made : PackageReport} (hsep : s.Separate cwd)
    (hcareful : s.Careful cwd v env) (hready : s.Ready cwd w.files)
    (h : package env s ps v w = .ok made w') : s.Marked cwd v w'.files ∧
      ∃ cleaned artifacts packaged, cleanIf s w = .ok () cleaned ∧
        packageEach env s v ps cleaned = .ok artifacts packaged ∧
        markVersion s v packaged = .ok () w' := by
  obtain ⟨cleaned, packaged, artifacts, hclean, heach, hmark, -⟩ := package_ok h
  have hpackaged := (marker_of_packageEach hsep hcareful
    (hready.shrunk (shrunk_of_cleanIf hclean).1) ps).1
  rw [after_of_ok heach] at hpackaged
  exact ⟨marked_of_markVersion hsep hpackaged hmark, cleaned, artifacts, packaged, hclean, heach,
    hmark⟩

/-- A run that cleans and fails afterwards leaves no marker. -/
theorem no_marker_of_package_error (hsep : s.Separate cwd) (hcareful : s.Careful cwd v env)
    (hready : s.Ready cwd w.files) (hwanted : s.clean = true)
    (hclean : clean s w = .ok () cleaned) (h : package env s ps v w = .error e w') :
    w'.files.get? (s.markerPlace cwd) = none := by
  have hbegin : cleanIf s w = .ok () cleaned := by
    rw [cleanIf, if_pos hwanted]
    exact hclean
  rw [marker_of_package_error hsep hcareful hready hbegin h]
  exact output_of_clean hsep hready hclean (root_prefix_markerPlace s cwd)

end Packaging

namespace Pipeline

variable {env : Surroundings σ} {s : Settings} {cwd : Location} {v : Version} {w w₁ : World σ}
  {version selector : String} {made : Option PackageReport}

theorem package_of_prepare (h : prepare env version (some ⟨selector, s⟩) w = .ok (v, made) w₁) :
    ∃ ps w₀ report, w₀.files = w.files ∧ made = some report ∧
      Platform.resolve selector s.host = .ok ps ∧
      Packaging.package env s ps v w₀ = .ok report w₁ := by
  obtain ⟨v', w₂, hversion, h⟩ := bind_eq_ok.1 h
  obtain ⟨_, w₃, hreport, h⟩ := bind_eq_ok.1 h
  obtain ⟨made', w₄, hmade, h⟩ := bind_eq_ok.1 h
  cases h
  have hmade : (some <$> runPackage env ⟨selector, s⟩ v) w₃ = .ok made w₁ := hmade
  rw [map_eq_pure_bind, runPackage_eq] at hmade
  obtain ⟨report, w₅, hrun, h⟩ := bind_eq_ok.1 hmade
  cases h
  obtain ⟨ps, w₆, hannounce, hpackage⟩ := bind_eq_ok.1 hrun
  refine ⟨ps, w₆, report, ?_, rfl, resolve_of_announce hannounce, hpackage⟩
  -- What is said before packaging leaves the files as they are.
  have hfirst : Evolves Eq (orThrow (Version.parse version) : Session σ Version) := .orThrow _
  have hannounced : Evolves Eq (announce ⟨selector, s⟩ v : Session σ (List Platform)) :=
    (Evolves.orThrow _).bind fun _ ↦ (Evolves.record _).bind fun _ ↦ (Evolves.record _).bind fun _ ↦
      .pure _
  have h₂ := hfirst w
  have h₆ := hannounced w₃
  rw [after_of_ok hversion] at h₂
  rw [after_of_ok hannounce] at h₆
  rw [← h₆, (report_eq_ok hreport).1, h₂]

end Pipeline

namespace Packaging

/-- Where the version's marker goes, nothing happens while the platforms are packaged, wherever that
ends. When all of them are done the marker is written, with the version's text and nothing else, and
packaging that ends well has come that way. Packaging that fails leaves the marker that it found, or
none if it cleaned. In a whole run, neither a build that is declined nor an image stage that fails
takes the mark or the products back. -/
theorem commit_point {env : Surroundings σ} {s : Settings} {cwd : Location} {v : Version}
    {ps : List Platform} {w : World σ} (hsep : s.Separate cwd) (hready : s.Ready cwd w.files)
    (hcareful : s.Careful cwd v env) :
    (∀ before later cleaned, ps = before ++ later → cleanIf s w = .ok () cleaned →
      (after (packageEach env s v before) cleaned).files.get? (s.markerPlace cwd) =
        cleaned.files.get? (s.markerPlace cwd)) ∧
    (∀ cleaned artifacts packaged, cleanIf s w = .ok () cleaned →
      packageEach env s v ps cleaned = .ok artifacts packaged →
        package env s ps v w = (do
            markVersion s v
            return (⟨v, artifacts, s.versionMarker⟩ : PackageReport)) packaged ∧
          ∀ marked, markVersion s v packaged = .ok () marked → s.Marked cwd v marked.files) ∧
    (∀ made w', package env s ps v w = .ok made w' → s.Marked cwd v w'.files ∧
      ∃ cleaned artifacts packaged, cleanIf s w = .ok () cleaned ∧
        packageEach env s v ps cleaned = .ok artifacts packaged ∧
        markVersion s v packaged = .ok () w') ∧
    (∀ e w', package env s ps v w = .error e w' →
      (s.clean = false →
        w'.files.get? (s.markerPlace cwd) = w.files.get? (s.markerPlace cwd)) ∧
      ∀ cleaned, s.clean = true → clean s w = .ok () cleaned →
        w'.files.get? (s.markerPlace cwd) = none) ∧
    ∀ credentials version selector i made w₁,
      (∀ answer, ∀ step ∈ ImagePlan.commands i v answer, ∀ fs tools, ∀ r ∈ s.roots, ∀ l,
        placeOf cwd r.bytes <+: l → (env.execute step.1 step.2 fs tools).files.get? l = fs.get? l) →
      Pipeline.prepare env version (some ⟨selector, s⟩) w = .ok (v, made) w₁ →
      let w' := after (Pipeline.run env credentials ⟨version, some ⟨selector, s⟩, some i⟩) w
      s.Marked cwd v w'.files ∧
        ∀ r ∈ s.roots, ∀ l, placeOf cwd r.bytes <+: l → w'.files.get? l = w₁.files.get? l := by
  have hcleaned {cleaned : World σ} (hclean : cleanIf s w = .ok () cleaned) :
      s.Ready cwd cleaned.files := hready.shrunk (shrunk_of_cleanIf hclean).1
  refine ⟨?_, ?_, ?_, ?_, ?_⟩
  · intro before later cleaned _ hclean
    exact (marker_of_packageEach hsep hcareful (hcleaned hclean) before).2
  · intro cleaned artifacts packaged hclean heach
    refine ⟨package_after_platforms hclean heach, fun marked hmark ↦ ?_⟩
    have hpackaged := (marker_of_packageEach hsep hcareful (hcleaned hclean) ps).1
    rw [after_of_ok heach] at hpackaged
    exact marked_of_markVersion hsep hpackaged hmark
  · intro made w' h
    exact marked_of_package hsep hcareful hready h
  · intro e w' h
    refine ⟨fun hwanted ↦ ?_, fun cleaned hwanted hclean ↦
      no_marker_of_package_error hsep hcareful hready hwanted hclean h⟩
    refine marker_of_package_error hsep hcareful hready ?_ h
    rw [cleanIf, hwanted]
    rfl
  · intro credentials version selector i made w₁ hdocker hprepare w'
    obtain ⟨qs, w₀, report, hfiles, -, -, hpackage⟩ := Pipeline.package_of_prepare hprepare
    rw [← hfiles] at hready
    obtain ⟨mode, hmarked⟩ := (marked_of_package hsep hcareful hready hpackage).1
    have hcommands : ∀ answer, ∀ step ∈ i.commands v answer, ∀ fs tools,
        Same (fun l ↦ ∃ r ∈ s.roots, placeOf cwd r.bytes <+: l) fs
          (env.execute step.1 step.2 fs tools).files := by
      rintro answer step hstep fs tools l ⟨r, hr, hl⟩
      exact hdocker answer step hstep fs tools r hr l hl
    have hsame := Pipeline.evolves_run credentials hcommands hprepare
    refine ⟨⟨mode, ?_⟩, fun r hr l hl ↦ hsame l ⟨r, hr, hl⟩⟩
    exact (hsame _ ⟨_, s.outputRoot_mem, root_prefix_markerPlace s cwd⟩).trans hmarked

end Packaging

namespace Rehearsal

open Packaging

variable {s : Settings} {w w₁ : World Unit}

def refusing : Surroundings Unit where
  execute _ _ fs _ := ⟨.ok ⟨some 1⟩, [], fs, (), []⟩
  interactive := false
  answer _ _ := (false, ())

theorem careful_refusing (s : Settings) (cwd : Location) (v : Version) :
    s.Careful cwd v refusing :=
  fun _ _ _ _ _ hready ↦ ⟨hready.wellFormed, rfl, fun _ _ ↦ id, rfl⟩

theorem packageEach_of_refusal {env : Surroundings Unit} {v : Version} {p : Platform}
    {w' : World Unit} {e : ReleaseError} (hbegin : beginPlatform s p w = .ok () w₁)
    (hcompanion : publishCompanion env s v p w₁ = .error e w') (ps : List Platform) :
    packageEach env s v (p :: ps) w = .error e w' := by
  obtain ⟨_, headed, hheading, hclear⟩ := bind_eq_ok.1 hbegin
  have hplatform : packagePlatform env s v p w = .error e w' :=
    bind_eq_error.2 (.inr ⟨_, headed, hheading, bind_eq_error.2 (.inr ⟨_, w₁, hclear,
      bind_of_error hcompanion⟩)⟩)
  exact bind_of_error hplatform

theorem packageEach_refused {p : Platform} (hbegin : beginPlatform s p w = .ok () w₁) (v : Version)
    (ps : List Platform) :
    ∃ e w', packageEach refusing s v (p :: ps) w = .error e w' ∧ w'.files = w₁.files := by
  obtain ⟨e, w', hcompanion, hfiles⟩ : ∃ e w', publishCompanion refusing s v p w₁ = .error e w' ∧
      w'.files = w₁.files := ⟨_, _, rfl, rfl⟩
  exact ⟨e, w', packageEach_of_refusal hbegin hcompanion ps, hfiles⟩

def emptied : FileSystem :=
  ((marked.removeTree [[111]]).removeTree [[115], linux]).removeTree [[99]]

theorem ready_marked : settings.Ready [] marked := by
  obtain ⟨made, w', hpackage, hw'⟩ := package_leaves (w := ⟨stale, (), []⟩) (.inr rfl)
  have hready := ready_of_package (w := ⟨stale, (), []⟩) separate_settings
    ((confined_publishing agent binary).careful separate_settings) (ready_disk (.inr rfl))
    [.linuxX64]
  rwa [after_of_ok hpackage, hw'] at hready

theorem bytes_outputRoot : settings.outputRoot.bytes = joinNames true [[111]] := by decide

theorem bytes_stagingRoot : settings.stagingRoot.bytes = joinNames true [[115]] := by decide

theorem bytes_companionRoot : settings.companionRoot.bytes = joinNames true [[99]] := by decide

theorem removeEach_done (path : Path) (entries : List (Location × Node))
    (hw : w.files.refusals = []) : ∃ w', removeEach path entries w = .ok () w' ∧
      w'.files = entries.foldl (fun fs e ↦ fs.removeTree e.1) w.files := by
  induction entries generalizing w with
  | nil => exact ⟨w, rfl, rfl⟩
  | cons e entries ih =>
    have hremove : FileSystem.removeAt e.1 w.files = .ok () (w.files.removeTree e.1) := by
      unfold FileSystem.removeAt
      rw [hw]
      rfl
    obtain ⟨w', hrest, hfiles⟩ := ih (w := { w with files := w.files.removeTree e.1 }) hw
    exact ⟨w', bind_eq_ok.2 ⟨(), _, onFiles_done hremove, hrest⟩, hfiles⟩

theorem clean_of_removals {fs₁ fs₂ fs₃ : FileSystem} {entries : List (Location × Node)}
    (houtput : ifAny (FileSystem.removeDirectory (joinNames true [[111]])) w.files = .ok () fs₁)
    (hrefusals : fs₁.refusals = [])
    (hstaging : fs₁.listDirectory (joinNames true [[115]]) = .ok entries)
    (hentries : entries.foldl (fun fs e ↦ fs.removeTree e.1) fs₁ = fs₂)
    (hcompanion : ifAny (FileSystem.removeDirectory (joinNames true [[99]])) fs₂ = .ok () fs₃) :
    ∃ w', clean settings w = .ok () w' ∧ w'.files = fs₃ := by
  rw [← bytes_outputRoot] at houtput
  rw [← bytes_stagingRoot] at hstaging
  rw [← bytes_companionRoot] at hcompanion
  obtain ⟨w₁, hreport, hw₁⟩ : ∃ w₁, report (.progress "Cleaning previous build output...") w =
      .ok () w₁ ∧ w₁.files = w.files := ⟨_, rfl, rfl⟩
  rw [← hw₁] at houtput
  obtain ⟨w₂, hremoved, rfl⟩ : ∃ w₂, Session.removeDirectory settings.outputRoot w₁ = .ok () w₂ ∧
      w₂.files = fs₁ := ⟨_, onFiles_done houtput, rfl⟩
  obtain ⟨w₃, heach, hw₃⟩ := removeEach_done settings.stagingRoot entries hrefusals
  have hslots : clearSlots settings.stagingRoot w₂ = .ok () w₃ := by
    refine bind_eq_ok.2 ⟨w₂.files, w₂, rfl, ?_⟩
    rw [hstaging]
    exact heach
  rw [← hentries, ← hw₃] at hcompanion
  exact ⟨_, bind_eq_ok.2 ⟨(), w₁, hreport, bind_eq_ok.2 ⟨(), w₂, hremoved, bind_eq_ok.2 ⟨(), w₃,
    hslots, bind_eq_ok.2 ⟨(), _, onFiles_done hcompanion, bind_eq_ok.2 ⟨(), _, rfl, rfl⟩⟩⟩⟩⟩, rfl⟩

theorem clean_done (hw : w.files = marked) :
    ∃ w', clean settings w = .ok () w' ∧ w'.files = emptied := by
  have houtput : ifAny (FileSystem.removeDirectory (joinNames true [[111]])) w.files =
      .ok () (marked.removeTree [[111]]) := by
    rw [hw]
    cbv
  have hstaging : (marked.removeTree [[111]]).listDirectory (joinNames true [[115]]) =
      .ok [([[115], linux], .directory)] := by
    cbv
  exact clean_of_removals houtput rfl hstaging rfl (by cbv)

theorem cleanIf_done (c : Bool) (hw : w.files = marked) :
    ∃ w', cleanIf { settings with clean := c } w = .ok () w' ∧
      w'.files = if c then emptied else marked := by
  cases c with
  | false => exact ⟨w, rfl, hw⟩
  | true => exact clean_done hw

def begunAgain : FileSystem :=
  ((marked.removeTree [[115], linux, zip]).removeTree [[99], linux]).removeTree
    [[111], linux, agent]

theorem begin_marked (hw : w.files = marked) :
    ∃ w', beginPlatform settings .linuxX64 w = .ok () w' ∧ w'.files = begunAgain := by
  have hslot : ifAny (FileSystem.removeFile (slotArchive settings.stagingRoot .linuxX64).bytes)
      w.files = .ok () (marked.removeTree [[115], linux, zip]) := by
    rw [bytes_archive, hw]
    cbv
  have hbundle : ifAny (FileSystem.removeDirectory (settings.bundleDir .linuxX64).bytes)
      (marked.removeTree [[115], linux, zip]) =
        .ok () ((marked.removeTree [[115], linux, zip]).removeTree [[99], linux]) := by
    rw [bytes_bundle]
    cbv
  have hexecutable : ifAny (FileSystem.removeFile (settings.agentBinary .linuxX64).bytes)
      ((marked.removeTree [[115], linux, zip]).removeTree [[99], linux]) = .ok () begunAgain := by
    rw [bytes_executable]
    cbv
  exact begin_of_removals hslot hbundle hexecutable

theorem begin_emptied (hw : w.files = emptied) :
    ∃ w', beginPlatform settings .linuxX64 w = .ok () w' ∧ w'.files = emptied := by
  have hslot : ifAny (FileSystem.removeFile (slotArchive settings.stagingRoot .linuxX64).bytes)
      w.files = .ok () emptied := by
    rw [bytes_archive, hw]
    cbv
  have hbundle : ifAny (FileSystem.removeDirectory (settings.bundleDir .linuxX64).bytes) emptied =
      .ok () emptied := by
    rw [bytes_bundle]
    cbv
  have hexecutable : ifAny (FileSystem.removeFile (settings.agentBinary .linuxX64).bytes) emptied =
      .ok () emptied := by
    rw [bytes_executable]
    cbv
  exact begin_of_removals hslot hbundle hexecutable

def unagreed : ImagePlan where
  registry := "registry.example.com"
  name := "agent"
  tag := none
  dockerfile := ⟨"/Dockerfile"⟩
  context := ⟨"/"⟩
  platform := "linux/amd64"
  buildConfiguration := "Release"
  noCache := false
  publish := {}
  assumeYes := false

theorem flagValue?_unagreed {answer : String → Option Bool} {step : Mode × Invocation}
    (h : step ∈ unagreed.commands version answer) : step.2.flagValue? "-o" = none := by
  have hproduction : isProductionTag (ImageReference.new unagreed.registry unagreed.name
      (unagreed.tag.getD version.text)).tag = true := by decide
  unfold ImagePlan.commands at h
  dsimp only at h
  rw [if_pos hproduction, if_pos hproduction] at h
  split at h
  · cases h
  obtain rfl | h := List.mem_cons.1 h
  · decide
  obtain rfl | h := List.mem_cons.1 h
  · decide
  obtain rfl | h := List.mem_cons.1 h
  · decide
  obtain ⟨-, h⟩ := List.mem_ite_nil_left.1 h
  rw [List.mem_append, List.mem_ite_nil_right, List.mem_singleton, List.mem_pair] at h
  obtain ⟨-, rfl⟩ | rfl | rfl := h <;> decide

theorem prepare_done (hw : w.files = stale) : ∃ made w₁,
    Pipeline.prepare (publishing agent binary) "1.2.3" (some ⟨"linux-x64", settings⟩) w =
      .ok (version, some made) w₁ := by
  obtain ⟨w₀, hreport⟩ : ∃ w₀, report (.verbose
      s!"Version {version.text} (file version {version.fileVersion})") w = .ok () w₀ := ⟨_, rfl⟩
  have hw₀ : w₀.files = stale := (report_eq_ok hreport).1.trans hw
  obtain ⟨w₂, hannounce, hw₂⟩ : ∃ w₂, Pipeline.announce ⟨"linux-x64", settings⟩ version w₀ =
      .ok [.linuxX64] w₂ ∧ w₂.files = stale := ⟨_, rfl, hw₀⟩
  obtain ⟨made, w₁, hpackage, -⟩ := package_leaves (.inr hw₂)
  have hrun : Pipeline.packagePlanned (publishing agent binary) version
      (some ⟨"linux-x64", settings⟩) w₀ = .ok (some made) w₁ := by
    change (some <$> Pipeline.runPackage _ _ version) _ = _
    rw [map_eq_pure_bind, Pipeline.runPackage_eq]
    exact bind_eq_ok.2 ⟨made, w₁, bind_eq_ok.2 ⟨_, w₂, hannounce, hpackage⟩, rfl⟩
  exact ⟨made, w₁, bind_eq_ok.2 ⟨version, w, rfl, bind_eq_ok.2 ⟨(), w₀, hreport,
    bind_eq_ok.2 ⟨some made, w₁, hrun, rfl⟩⟩⟩⟩

end Rehearsal

namespace Packaging

open Rehearsal

/-- Two ends, rehearsed. After a build that was declined the version stays marked; and on a disk
with a marked version, tools that fail leave the marker, or none when the disk was cleaned first. -/
theorem commit_point_rehearsed :
    let w : World Unit := ⟨stale, (), []⟩
    let plan : Plan := ⟨"1.2.3", some ⟨"linux-x64", settings⟩, some unagreed⟩
    settings.Marked [] version (after (Pipeline.run (publishing agent binary) none plan) w).files ∧
      ∀ c, ∃ e w', package refusing { settings with clean := c } [.linuxX64] version
          ⟨marked, (), []⟩ = .error e w' ∧
        w'.files.get? (settings.markerPlace []) =
          if c then none else marked.get? (settings.markerPlace []) := by
  intro w plan
  refine ⟨?_, fun c ↦ ?_⟩
  · obtain ⟨made, w₁, hprepare⟩ := prepare_done (w := w) rfl
    obtain ⟨-, -, -, -, hrun⟩ := @commit_point _ _ settings [] version [] w separate_settings
      (ready_disk (.inr rfl)) ((confined_publishing agent binary).careful separate_settings)
    refine (hrun none "1.2.3" "linux-x64" unagreed _ w₁ ?_ hprepare).1
    intro answer step hstep fs tools r _ l _
    have hsame : layOutput agent binary step.2 fs = fs :=
      layOutput_of_no_flag (flagValue?_unagreed hstep)
    exact congrArg (fun fs ↦ FileSystem.get? fs l) hsame
  · let w : World Unit := ⟨marked, (), []⟩
    obtain ⟨cleaned, hclean, hcleaned⟩ := cleanIf_done (w := w) c rfl
    obtain ⟨begun, hbegin, -⟩ : ∃ begun, beginPlatform settings .linuxX64 cleaned = .ok () begun ∧
        begun.files = if c then emptied else begunAgain := by
      cases c with
      | false => exact begin_marked hcleaned
      | true => exact begin_emptied hcleaned
    obtain ⟨e, w', heach, -⟩ := packageEach_refused hbegin version []
    have hpackage : package refusing { settings with clean := c } [.linuxX64] version w =
        .error e w' := by
      rw [package_eq]
      refine bind_eq_error.2 (.inr ⟨(), cleaned, hclean, bind_of_error ?_⟩)
      rw [packageEach_clean]
      exact heach
    obtain ⟨-, -, -, herror, -⟩ := commit_point (separate_settings.withClean c)
      (ready_marked.withClean c) (careful_refusing _ [] version) (w := w)
    obtain ⟨hkept, hgone⟩ := herror e w' hpackage
    refine ⟨e, w', hpackage, ?_⟩
    cases c with
    | false => exact hkept rfl
    | true => exact hgone cleaned rfl hclean

end Packaging

end ReleaseTrain
