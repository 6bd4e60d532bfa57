import ReleaseTrain.Proofs.PublishedExecutables

namespace ReleaseTrain

open FileSystem Session Settings

variable {σ : Type}

namespace Settings

variable {s : Settings} {cwd l : Location} {fs fs' fs'' : FileSystem} {touched : Platform → Prop}
  {p q : Platform} {r : Path}

def Outside (s : Settings) (cwd : Location) (touched : Platform → Prop) (l : Location) : Prop :=
  ∀ p, touched p → ∀ r ∈ s.roots, ¬home cwd r p <+: l

/-- The place is on the way to a touched platform's own directory or to the output root. -/
def OnTheWay (s : Settings) (cwd : Location) (touched : Platform → Prop) (l : Location) : Prop :=
  l <+: placeOf cwd s.outputRoot.bytes ∨ ∃ p, touched p ∧ ∃ r ∈ s.roots, l <+: home cwd r p

/-- Outside the touched platforms' own directories nothing happened but that directories were made
on the way to them. -/
structure Framed (s : Settings) (cwd : Location) (touched : Platform → Prop)
    (fs fs' : FileSystem) : Prop where
  ready : s.Ready cwd fs → s.Ready cwd fs'
  outside : s.Ready cwd fs → ∀ l, s.Outside cwd touched l → fs'.get? l = fs.get? l ∨
    s.OnTheWay cwd touched l ∧ fs.get? l = none ∧ fs'.get? l = some .directory

instance : IsPreorder FileSystem (s.Framed cwd touched) where
  refl _ := ⟨id, fun _ _ _ ↦ .inl rfl⟩
  trans _ _ _ h h' := by
    refine ⟨h'.ready ∘ h.ready, fun hready l hl ↦ ?_⟩
    obtain hsame | ⟨hway, hnone, hmade⟩ := h.outside hready l hl
    · rw [← hsame]
      exact h'.outside (h.ready hready) l hl
    · obtain hsame' | ⟨-, hnone', -⟩ := h'.outside (h.ready hready) l hl
      · exact .inr ⟨hway, hnone, hsame'.trans hmade⟩
      · rw [hmade] at hnone'
        cases hnone'

theorem Framed.of_within (hp : touched p) (hr : r ∈ s.roots)
    (h : s.Ready cwd fs → Within (home cwd r p) fs fs') : s.Framed cwd touched fs fs' :=
  ⟨fun hready ↦ hready.within (h hready), fun hready l hl ↦
    ((h hready).outside l (hl p hp r hr)).imp_right fun hmade ↦ ⟨.inr ⟨p, hp, r, hr, hmade.1⟩, hmade.2⟩⟩

theorem Framed.of_grown (h : Grown (placeOf cwd s.outputRoot.bytes) fs fs') :
    s.Framed cwd touched fs fs' :=
  ⟨fun hready ↦ hready.within (.of_grown h), fun _ l _ ↦
    (h.get? l).imp_right fun hmade ↦ ⟨.inl hmade.1, hmade.2⟩⟩

theorem Confined.framed {v : Version} {env : Surroundings σ} (h : s.Confined cwd v env)
    (hp : touched p) : Packaging.Covers (s.Framed cwd touched) env s cwd v p where
  files _ hr _ _ hwithin := .of_within hp hr hwithin
  commands step hstep fs tools := by
    obtain ⟨r, hr, hwithin⟩ := h.within hstep
    exact .of_within hp hr (hwithin fs tools)

namespace Disjoint

variable (h : s.Disjoint cwd)
include h

theorem outside_of_untouched (hq : ¬touched q) (hr : r ∈ s.roots) (hl : home cwd r q <+: l) :
    s.Outside cwd touched l := by
  intro p hp r' hr'
  have hne : p ≠ q := by
    rintro rfl
    exact hq hp
  exact ((h.apart_homes hr' hr (.inr hne)).beneath (List.prefix_refl _) hl).1

theorem not_onTheWay_of_untouched (hq : ¬touched q) (hr : r ∈ s.roots)
    (hl : home cwd r q <+: l) : ¬s.OnTheWay cwd touched l := by
  rintro (hway | ⟨p, hp, r', hr', hway⟩)
  · by_cases hout : s.outputRoot = r
    · have hlength := (hl.trans hway).length_le
      rw [hout, home_eq, List.length_append, List.length_singleton] at hlength
      omega
    · exact (h.apart_roots hr s.outputRoot_mem (Ne.symm hout)).1
        ((root_prefix_home cwd r q).trans (hl.trans hway))
  · have hne : p ≠ q := by
      rintro rfl
      exact hq hp
    exact (h.apart_homes hr' hr (.inr hne)).2 (hl.trans hway)

end Disjoint

end Settings

namespace Packaging

variable {env : Surroundings σ} {s : Settings} {cwd : Location} {v : Version} {p q : Platform}
  {ps before later : List Platform} {w w' w₁ : World σ} {touched : Platform → Prop}
  {artifacts : List Artifact}

def finish (env : Surroundings σ) (s : Settings) (v : Version) (ps : List Platform) :
    Session σ Unit := do
  let _ ← packageEach env s v ps
  markVersion s v

theorem finish_cons : finish env s v (p :: ps) =
    packagePlatform env s v p >>= fun _ ↦ finish env s v ps := by
  simp only [finish, packageEach, bind_assoc, pure_bind]

theorem finish_eq (hclean : s.clean = false) :
    finish env s v ps = package env s ps v >>= fun _ ↦ pure () := by
  rw [package_eq, hclean]
  simp [finish]

theorem after_finish (hclean : s.clean = false) (w : World σ) :
    after (finish env s v ps) w = after (package env s ps v) w := by
  rw [finish_eq hclean, after_bind_pure]

theorem finish_append (h : packageEach env s v before w = .ok artifacts w₁) :
    finish env s v (before ++ later) w = finish env s v later w₁ := by
  induction before generalizing w artifacts with
  | nil =>
    cases h
    rfl
  | cons p before ih =>
    obtain ⟨a, w₂, hplatform, h⟩ := bind_eq_ok.1 h
    obtain ⟨others, w₃, hothers, h⟩ := bind_eq_ok.1 h
    cases h
    rw [List.cons_append, finish_cons, bind_of_ok hplatform, ih hothers]

/-- Wherever the run ends, it touches no platforms but those that it comes to, and besides them
nothing but the version's marker, which it writes only when it ends well. -/
theorem framed_finish (hsep : s.Separate cwd) (hconfined : s.Confined cwd v env)
    (hready : s.Ready cwd w.files)
    (htouched : ∀ before p later artifacts reached, ps = before ++ p :: later →
      packageEach env s v before w = .ok artifacts reached → touched p) :
    s.Framed cwd touched w.files (after (finish env s v ps) w).files ∨
      ∃ grown w' content mode, s.Framed cwd touched w.files grown ∧
        finish env s v ps w = .ok () w' ∧
        w'.files = grown.set (s.markerPlace cwd) (.file content mode) := by
  induction ps generalizing w with
  | nil =>
    change s.Framed cwd touched w.files (after (markVersion s v) w).files ∨
      ∃ grown w' content mode, s.Framed cwd touched w.files grown ∧
        markVersion s v w = .ok () w' ∧ _
    cases hmark : markVersion s v w with
    | error e w' =>
      rw [after_of_error hmark]
      exact .inl (.of_grown (grown_of_markVersion_error hsep hready hmark))
    | ok u w' =>
      obtain ⟨-, grown, mode, hgrown, hfiles, -⟩ := markVersion_plain hsep hready hmark
      exact .inr ⟨grown, w', _, mode, .of_grown hgrown, rfl, hfiles⟩
  | cons p ps ih =>
    have hp : touched p := htouched [] p ps [] w rfl rfl
    have hevolves := evolves_packagePlatform hsep (hconfined.framed hp)
    rw [finish_cons]
    cases hplatform : packagePlatform env s v p w with
    | error e w₁ =>
      rw [after_of_error (bind_of_error hplatform)]
      exact .inl (hevolves.of_error hplatform)
    | ok a w₁ =>
      have hfirst := hevolves.of_ok hplatform
      rw [after_bind_of_ok hplatform, bind_of_ok hplatform]
      have hrest := ih (hfirst.ready hready) fun before q later artifacts reached hps hbefore ↦
        htouched (p :: before) q later (a :: artifacts) reached (congrArg _ hps)
          (bind_eq_ok.2 ⟨a, w₁, hplatform, bind_eq_ok.2 ⟨artifacts, reached, hbefore, rfl⟩⟩)
      obtain hrest | ⟨grown, w', content, mode, hgrown, hdone, hfiles⟩ := hrest
      · exact .inl (trans_of (s.Framed cwd touched) hfirst hrest)
      · exact .inr ⟨grown, w', content, mode, trans_of (s.Framed cwd touched) hfirst hgrown, hdone,
          hfiles⟩

theorem ready_of_packagePlatform {a : Artifact} (hsep : s.Separate cwd)
    (hconfined : s.Confined cwd v env) (hready : s.Ready cwd w.files)
    (h : packagePlatform env s v p w = .ok a w') : s.Ready cwd w'.files := by
  have hcovers : Covers (s.Framed cwd (· = p)) env s cwd v p := hconfined.framed rfl
  exact ((evolves_packagePlatform hsep hcovers).of_ok h).ready hready

theorem ready_of_packageEach (hsep : s.Separate cwd) (hconfined : s.Confined cwd v env)
    (hready : s.Ready cwd w.files) (h : packageEach env s v ps w = .ok artifacts w') :
    s.Ready cwd w'.files := by
  have hcovers : ∀ p ∈ ps, Covers (s.Framed cwd (· ∈ ps)) env s cwd v p :=
    fun p hp ↦ hconfined.framed hp
  exact ((evolves_packageEach hsep hcovers).of_ok h).ready hready

theorem frame_of_package (hsep : s.Separate cwd) (hconfined : s.Confined cwd v env)
    (hready : s.Ready cwd w.files) (hclean : s.clean = false)
    (htouched : ∀ before p later artifacts reached, ps = before ++ p :: later →
      packageEach env s v before w = .ok artifacts reached → touched p)
    {l : Location} (hl : s.Outside cwd touched l) :
    (after (package env s ps v) w).files.get? l = w.files.get? l ∨
      s.OnTheWay cwd touched l ∧ w.files.get? l = none ∧
        (after (package env s ps v) w).files.get? l = some .directory ∨
      l = s.markerPlace cwd ∧ ∃ made w', package env s ps v w = .ok made w' := by
  rw [← after_finish hclean]
  obtain hframed | ⟨grown, w', content, mode, hframed, hdone, hfiles⟩ :=
    framed_finish hsep hconfined hready htouched
  · exact (hframed.outside hready l hl).imp_right .inl
  by_cases hmarker : l = s.markerPlace cwd
  · rw [finish_eq hclean] at hdone
    obtain ⟨made, w₁, hpackage, -⟩ := bind_eq_ok.1 hdone
    exact .inr (.inr ⟨hmarker, made, w₁, hpackage⟩)
  · rw [after_of_ok hdone, hfiles, get?_set_of_ne _ hmarker]
    exact (hframed.outside hready l hl).imp_right .inl

theorem same_of_untouched (hdisjoint : s.Disjoint cwd) (hconfined : s.Confined cwd v env)
    (hready : s.Ready cwd w.files) (hclean : s.clean = false)
    (htouched : ∀ before p later artifacts reached, ps = before ++ p :: later →
      packageEach env s v before w = .ok artifacts reached → touched p)
    (hq : ¬touched q) {r : Path} (hr : r ∈ s.roots) {l : Location} (hl : home cwd r q <+: l) :
    (after (package env s ps v) w).files.get? l = w.files.get? l := by
  have hsep := hdisjoint.toSeparate
  obtain hsame | ⟨hway, -⟩ | ⟨rfl, -⟩ :=
    frame_of_package hsep hconfined hready hclean htouched (hdisjoint.outside_of_untouched hq hr hl)
  · exact hsame
  · exact absurd hway (hdisjoint.not_onTheWay_of_untouched hq hr hl)
  · exact absurd hl (hsep.apart_marker hr q).2

end Packaging

end ReleaseTrain
