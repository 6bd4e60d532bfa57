import ReleaseTrain.Proofs.CommitPoint

namespace ReleaseTrain

open FileSystem Session Settings

variable {σ : Type}

theorem Platform.nodup_of_resolve {selector : String} {host : Host} {ps : List Platform}
    (h : resolve selector host = .ok ps) : ps.Nodup := by
  unfold resolve at h
  split at h
  · cases h
    exact List.Nodup.filter _ (by decide)
  · split at h
    · cases h
      exact List.nodup_singleton _
    · cases h

namespace Settings

variable {s : Settings} {cwd : Location} {fs : FileSystem} {v : Version} {env : Surroundings σ}
  {p q : Platform} {keep : Location → Prop}

theorem Confined.covers (h : s.Confined cwd v env)
    (hkeep : ∀ l, keep l → ∀ r ∈ s.roots, Apart (home cwd r q) l) :
    Packaging.Covers (s.Spares cwd keep) env s cwd v q where
  files r hr fs fs' hwithin := .of_within (fun l hl ↦ hkeep l hl r hr) hwithin
  commands step hstep fs tools := by
    obtain ⟨r, hr, hwithin⟩ := h.within hstep
    exact .of_within (fun l hl ↦ hkeep l hl r hr) (hwithin fs tools)

end Settings

namespace Packaging

variable {env : Surroundings σ} {s : Settings} {cwd : Location} {v : Version} {p q : Platform}
  {ps : List Platform} {w w' : World σ} {e : ReleaseError}

/-- In the run the agent's publish put the content at the executable's path, where nothing was. -/
def Published (env : Surroundings σ) (s : Settings) (v : Version) (ps : List Platform) (w : World σ)
    (p : Platform) (held : Content) : Prop :=
  ∃ before later handed published, ps = before ++ p :: later ∧
    untilHandOver env s v before p w = .ok (slotArchive s.stagingRoot p) handed ∧
    handed.files.nodeAt? (s.agentBinary p).bytes true = none ∧
    publishAgent env s v (slotArchive s.stagingRoot p) p handed = .ok () published ∧
    FileSystem.content (s.agentBinary p).bytes published.files = .ok held published.files

/-- The run came to the platform: it was done with those before it. -/
def Reached (env : Surroundings σ) (s : Settings) (v : Version) (ps : List Platform) (w : World σ)
    (p : Platform) : Prop :=
  ∃ before later cleaned artifacts reached, ps = before ++ p :: later ∧
    cleanIf s w = .ok () cleaned ∧ packageEach env s v before cleaned = .ok artifacts reached

theorem spares_executable (hsep : s.Separate cwd) (hconfined : s.Confined cwd v env) (hne : q ≠ p) :
    Covers (s.Spares cwd (· = s.executablePlace cwd p)) env s cwd v q := by
  refine hconfined.covers ?_
  rintro l rfl r hr
  exact (hsep.apart_agentDir hr (.inr hne)).beneath (List.prefix_refl _)
    (hsep.home_prefix_executablePlace p)

theorem executable_of_unreached (hsep : s.Separate cwd) (hconfined : s.Confined cwd v env)
    (hready : s.Ready cwd w.files) (hp : p ∈ ps) :
    (∃ before later artifacts reached, ps = before ++ p :: later ∧
      packageEach env s v before w = .ok artifacts reached) ∨
    (after (packageEach env s v ps) w).files.get? (s.executablePlace cwd p) =
      w.files.get? (s.executablePlace cwd p) := by
  induction ps generalizing w with
  | nil => cases hp
  | cons q ps ih =>
    by_cases hne : q = p
    · subst hne
      exact .inl ⟨[], ps, [], w, rfl, rfl⟩
    have hmem : p ∈ ps := (List.mem_cons.1 hp).resolve_left (Ne.symm hne)
    have hspared := evolves_packagePlatform hsep (spares_executable hsep hconfined hne) w
    have hsame := hspared.same hready _ rfl
    have hready' := hspared.ready hready
    cases hfirst : packagePlatform env s v q w with
    | error e w₁ =>
      rw [after_of_error hfirst] at hsame
      right
      have hall : packageEach env s v (q :: ps) w = .error e w₁ := bind_of_error hfirst
      rwa [after_of_error hall]
    | ok a w₁ =>
      rw [after_of_ok hfirst] at hsame hready'
      obtain ⟨before, later, artifacts, reached, rfl, hbefore⟩ | hrest := ih hready' hmem
      · exact .inl ⟨q :: before, later, a :: artifacts, reached, rfl,
          bind_eq_ok.2 ⟨a, w₁, hfirst, bind_eq_ok.2 ⟨artifacts, reached, hbefore, rfl⟩⟩⟩
      · right
        have hall : after (packageEach env s v (q :: ps)) w = after (packageEach env s v ps) w₁ :=
          (after_bind_of_ok hfirst).trans (after_bind_pure _ _ _)
        rw [hall, hrest, hsame]

theorem nodeAt?_executable {fs : FileSystem} (hsep : s.Separate cwd) (hready : s.Ready cwd fs)
    (h : fs.get? (s.executablePlace cwd p) = none) :
    fs.nodeAt? (s.agentBinary p).bytes true = none :=
  nodeAt?_plain hready.wellFormed (hready.names (hsep.names_executable p))
    (hready.direct s.outputRoot_mem
      ((root_prefix_home cwd _ p).trans (hsep.home_prefix_executablePlace p)))
    (Path.bytes_join_ne_nil (p.isPlainName_binaryName hsep.agentName) _) h

theorem content_executable {fs fs' : FileSystem} {held : Content} (hsep : s.Separate cwd)
    (hready : s.Ready cwd fs) (hready' : s.Ready cwd fs')
    (hstays : ∀ node, fs.get? (s.executablePlace cwd p) = some node →
      fs'.get? (s.executablePlace cwd p) = some node)
    (h : FileSystem.content (s.agentBinary p).bytes fs = .ok held fs) :
    FileSystem.content (s.agentBinary p).bytes fs' = .ok held fs' :=
  content_kept (hsep.names_executable p)
    (Path.bytes_join_ne_nil (p.isPlainName_binaryName hsep.agentName) _) s.outputRoot_mem
    (hsep.home_prefix_executablePlace p) hready hready' hstays h

theorem published_of_package {made : PackageReport} (hsep : s.Separate cwd)
    (hconfined : s.Confined cwd v env) (hps : ps.Nodup) (hready : s.Ready cwd w.files)
    (h : package env s ps v w = .ok made w') (hp : p ∈ ps) : ∃ held,
      Published env s v ps w p held ∧
      FileSystem.content (s.agentBinary p).bytes w'.files = .ok held w'.files := by
  obtain ⟨before, later, rfl⟩ := List.append_of_mem hp
  obtain ⟨cleaned, packaged, artifacts, hclean, heach, hmark, -⟩ := package_ok h
  obtain ⟨first, reached, others, hbefore, hothers, -⟩ := packageEach_append heach
  obtain ⟨a, done, hplatform, hothers⟩ := bind_eq_ok.1 hothers
  obtain ⟨rest, w₁, hlater, hreturn⟩ := bind_eq_ok.1 hothers
  cases hreturn
  obtain ⟨hbeforeNodup, hrestNodup, -⟩ := List.nodup_append.1 hps
  obtain ⟨hpLater, hlaterNodup⟩ := List.nodup_cons.1 hrestNodup
  have hcleaned := hready.shrunk (shrunk_of_cleanIf hclean).1
  have hreached :=
    (packageEach_account hsep hconfined hbeforeNodup hcleaned hbefore).1.ready hcleaned
  obtain ⟨handed, published, held, mode, hover, hagent, hfiles, -, hheld, -⟩ :=
    published_of_packagePlatform hsep hconfined hreached hplatform
  have hhanded := (ready_of_handOver hsep hreached hover hconfined).2
  refine ⟨held, ⟨before, later, handed, published, rfl, bind_eq_ok.2 ⟨_, _, hclean,
    bind_eq_ok.2 ⟨_, _, hbefore, hover⟩⟩, nodeAt?_executable hsep hhanded
      (no_executable_of_handOver hsep hreached hover hconfined), hagent, hheld⟩, ?_⟩
  -- Later platforms and the marker leave it.
  have hdone := (packagePlatform_account hsep hconfined hreached hplatform).1.ready hreached
  have hkept := (packageEach_account hsep hconfined hlaterNodup hdone hlater).1
  have hwithin := markVersion_within hsep (hkept.ready hdone) hmark
  have hexecutable := hsep.home_prefix_executablePlace p
  rw [← hfiles] at hheld
  refine content_executable hsep hdone ((hkept.ready hdone).within hwithin) (fun node hnode ↦ ?_)
    hheld
  exact hwithin.stays ((hsep.apart_marker s.outputRoot_mem p).beneath (List.prefix_refl _)
    hexecutable).1 (hkept.stays _ _ (hsep.executable_outside_homes hpLater) hnode)

theorem executable_of_package_error (hsep : s.Separate cwd) (hconfined : s.Confined cwd v env)
    (hready : s.Ready cwd w.files) (hclean : cleanIf s w = .ok () w)
    (h : package env s ps v w = .error e w') (hp : p ∈ ps) :
    w'.files.get? (s.executablePlace cwd p) = w.files.get? (s.executablePlace cwd p) ∨
      Reached env s v ps w p := by
  rw [package_eq] at h
  obtain heach | ⟨artifacts, packaged, heach, -⟩ :=
    bind_eq_error.1 ((bind_of_ok hclean).symm.trans h)
  · obtain ⟨before, later, artifacts, reached, hps, hbefore⟩ | hsame :=
      executable_of_unreached hsep hconfined hready hp
    · exact .inr ⟨before, later, w, artifacts, reached, hps, hclean, hbefore⟩
    · rw [after_of_error heach] at hsame
      exact .inl hsame
  · obtain ⟨before, later, rfl⟩ := List.append_of_mem hp
    obtain ⟨first, reached, others, hbefore, -, -⟩ := packageEach_append heach
    exact .inr ⟨before, later, w, first, reached, rfl, hclean, hbefore⟩

/-- A run that fails leaves no marker, or it leaves the marker and the executables as they were, but
for those of the platforms that it came to without a cleaning and for those that were gone when its
cleaning was stopped. -/
theorem kept_of_package_error (hsep : s.Separate cwd) (hconfined : s.Confined cwd v env)
    (hready : s.Ready cwd w.files) (h : package env s ps v w = .error e w') :
    w'.files.get? (s.markerPlace cwd) = none ∨
      w'.files.get? (s.markerPlace cwd) = w.files.get? (s.markerPlace cwd) ∧
      ∀ p ∈ ps, w'.files.get? (s.executablePlace cwd p) = w.files.get? (s.executablePlace cwd p) ∨
        s.clean = false ∧ Reached env s v ps w p ∨
        (s.clean = true ∧ clean s w = .error e w') ∧
          w'.files.get? (s.executablePlace cwd p) = none := by
  have hcareful := hconfined.careful hsep
  cases hwanted : s.clean with
  | false =>
    have hclean : cleanIf s w = .ok () w := by
      rw [cleanIf, hwanted]
      rfl
    refine .inr ⟨marker_of_package_error hsep hcareful hready hclean h, fun p hp ↦ ?_⟩
    obtain hsame | hreached := executable_of_package_error hsep hconfined hready hclean h hp
    · exact .inl hsame
    · exact .inr (.inl ⟨rfl, hreached⟩)
  | true =>
    have hbegin : cleanIf s = (clean s : Session σ Unit) := by rw [cleanIf, hwanted, if_pos rfl]
    cases hclean : clean s w with
    | ok u cleaned =>
      exact .inl (no_marker_of_package_error hsep hcareful hready hwanted hclean h)
    | error e' w₁ =>
      have hend : package env s ps v w = .error e' w₁ := by
        rw [package_eq]
        exact bind_of_error ((congrFun hbegin w).trans hclean)
      rw [hend] at h
      cases h
      have hshrunk := (shrinks_clean s w).1
      rw [after_of_error hclean] at hshrunk
      obtain hmarker | hgone := hshrunk.get? (s.markerPlace cwd)
      · refine .inr ⟨hmarker, fun p _ ↦ ?_⟩
        obtain hsame | hgone := hshrunk.get? (s.executablePlace cwd p)
        · exact .inl hsame
        · exact .inr (.inr ⟨⟨rfl, rfl⟩, hgone⟩)
      · exact .inl hgone

end Packaging

end ReleaseTrain
