import Mathlib.Order.Defs.Unbundled
import ReleaseTrain.Proofs.PackagingSteps
import ReleaseTrain.Proofs.PlatformStages

namespace ReleaseTrain

open FileSystem Session Settings

variable {σ α β : Type}

namespace Session

/-- Wherever the session ends, the files that it leaves are related to those that it found. -/
def Evolves (R : FileSystem → FileSystem → Prop) (m : Session σ α) : Prop :=
  ∀ w, R w.files (after m w).files

namespace Evolves

variable {R : FileSystem → FileSystem → Prop} {m : Session σ α} {f : α → Session σ β}

theorem onFiles {cause : FileSystem.Failure → ReleaseError} {action : FileSystem.Action α}
    (h : ∀ fs, R fs (remaining (action fs))) :
    Evolves R (Session.onFiles cause action : Session σ α) := by
  intro w
  rw [files_after_onFiles]
  exact h w.files

theorem attempt {env : Surroundings σ} {mode : Mode} {command : Invocation}
    (h : ∀ fs tools, R fs (env.execute mode command fs tools).files) :
    Evolves R (Session.attempt env mode command) := fun w ↦ h w.files w.tools

theorem of_ok (h : Evolves R m) {w w' : World σ} {a : α} (hm : m w = .ok a w') :
    R w.files w'.files := by
  have hw := h w
  rwa [after_of_ok hm] at hw

theorem of_error (h : Evolves R m) {w w' : World σ} {e : ReleaseError} (hm : m w = .error e w') :
    R w.files w'.files := by
  have hw := h w
  rwa [after_of_error hm] at hw

theorem mono {R' : FileSystem → FileSystem → Prop} (h : Evolves R m)
    (hR : ∀ fs fs', R fs fs' → R' fs fs') : Evolves R' m := fun w ↦ hR _ _ (h w)

variable [IsPreorder FileSystem R]

theorem pure (a : α) : Evolves R (Pure.pure a : Session σ α) := fun w ↦ refl_of R w.files

theorem throw (e : ReleaseError) : Evolves R (MonadExcept.throw e : Session σ α) :=
  fun w ↦ refl_of R w.files

theorem bind_ok (hm : Evolves R m) (hf : ∀ a w w', m w = .ok a w' → Evolves R (f a)) :
    Evolves R (m >>= f) := by
  intro w
  cases hfirst : m w with
  | ok a w₁ =>
    rw [after_bind_of_ok hfirst]
    exact trans_of R (hm.of_ok hfirst) (hf a w w₁ hfirst w₁)
  | error e w₁ =>
    rw [after_of_error (bind_of_error hfirst)]
    exact hm.of_error hfirst

theorem bind (hm : Evolves R m) (hf : ∀ a, Evolves R (f a)) : Evolves R (m >>= f) :=
  hm.bind_ok fun a _ _ _ ↦ hf a

theorem record (events : List Event) : Evolves R (Session.record events : Session σ Unit) :=
  fun w ↦ refl_of R w.files

theorem report (r : Report) : Evolves R (Session.report r : Session σ Unit) := record _

theorem files : Evolves R (Session.files : Session σ FileSystem) := fun w ↦ refl_of R w.files

theorem confirm (env : Surroundings σ) (question : String) :
    Evolves R (Session.confirm env question) := fun w ↦ refl_of R w.files

theorem orThrow (x : Except ReleaseError α) : Evolves R (Session.orThrow x : Session σ α) := by
  cases x with
  | ok a => exact pure a
  | error e => exact throw e

theorem demand {env : Surroundings σ} {command : Invocation} {refusal : Outcome → ReleaseError}
    (h : ∀ fs tools, R fs (env.execute .captured command fs tools).files) :
    Evolves R (Session.demand env command refusal) := by
  have hrun : Evolves R (Session.run env command) := by
    refine (attempt h).bind fun r ↦ ?_
    cases r with
    | ok outcome => exact pure outcome
    | error failure => exact throw failure
  refine hrun.bind fun outcome ↦ ?_
  cases outcome.success with
  | true => exact pure ()
  | false => exact throw _

end Evolves

end Session

instance : IsPreorder FileSystem Shrunk where
  refl := .refl
  trans _ _ _ := .trans

namespace Packaging

variable {env : Surroundings σ} {s : Settings} {cwd : Location} {v : Version} {p : Platform}
  {R : FileSystem → FileSystem → Prop}

/-- The relation holds of all that packaging a platform may do: of what is done in the platform's
own directories, if no link is near them, and of what the platform's commands do. -/
structure Covers (R : FileSystem → FileSystem → Prop) (env : Surroundings σ) (s : Settings)
    (cwd : Location) (v : Version) (p : Platform) : Prop where
  files : ∀ r ∈ s.roots, ∀ fs fs', (s.Ready cwd fs → Within (home cwd r p) fs fs') → R fs fs'
  commands : ∀ step ∈ steps s v p, ∀ fs tools, R fs (env.execute step.1 step.2 fs tools).files

section Stages

variable (hsep : s.Separate cwd) (h : Covers R env s cwd v p)
include hsep h

theorem evolves_removeArchive : Evolves R (clearSlot s.stagingRoot p : Session σ Unit) := by
  refine .onFiles fun fs ↦ h.files s.stagingRoot s.stagingRoot_mem fs _ fun hready ↦ ?_
  rw [remaining_ifAny]
  have harchive := s.home_prefix_archivePlace cwd p
  exact (within_removeFile hready.wellFormed (hready.names (hsep.names_archive p))
    (hready.direct s.stagingRoot_mem ((root_prefix_home cwd _ p).trans harchive))
    (Path.bytes_join_ne_nil isPlainName_archive _)).mono harchive

theorem evolves_removeBundle :
    Evolves R (Session.removeDirectory (s.bundleDir p) : Session σ Unit) := by
  refine .onFiles fun fs ↦ h.files s.companionRoot s.companionRoot_mem fs _ fun hready ↦ ?_
  rw [remaining_ifAny]
  exact within_removeDirectory hready.wellFormed
    (hready.names (hsep.names_home s.companionRoot_mem p))
    (hready.direct_home s.companionRoot_mem p) (Path.bytes_join_ne_nil p.isPlainName_id _)

theorem evolves_removeExecutable :
    Evolves R (Session.removeFile (s.agentBinary p) : Session σ Unit) := by
  refine .onFiles fun fs ↦ h.files s.outputRoot s.outputRoot_mem fs _ fun hready ↦ ?_
  rw [remaining_ifAny]
  have hexecutable := hsep.home_prefix_executablePlace p
  exact (within_removeFile hready.wellFormed (hready.names (hsep.names_executable p))
    (hready.direct s.outputRoot_mem ((root_prefix_home cwd _ p).trans hexecutable))
    (Path.bytes_join_ne_nil (p.isPlainName_binaryName hsep.agentName) _)).mono hexecutable

theorem evolves_makeSlot :
    Evolves R (Session.makeDirectories (slot s.stagingRoot p) : Session σ Unit) :=
  .onFiles fun fs ↦ h.files s.stagingRoot s.stagingRoot_mem fs _ fun hready ↦
    .of_grown (grown_makeDirectories hready.wellFormed
      (hready.names (hsep.names_home s.stagingRoot_mem p))
      (hready.direct_home s.stagingRoot_mem p))

theorem evolves_writeArchive (content : Content) : Evolves R (Session.onFiles .io
    (FileSystem.write (slotArchive s.stagingRoot p).bytes content) : Session σ Unit) := by
  refine .onFiles fun fs ↦ h.files s.stagingRoot s.stagingRoot_mem fs _ fun hready ↦ ?_
  have harchive := s.home_prefix_archivePlace cwd p
  exact (within_write hready.wellFormed (hready.names (hsep.names_archive p))
    (hready.direct s.stagingRoot_mem ((root_prefix_home cwd _ p).trans harchive))
    (Path.bytes_join_ne_nil isPlainName_archive _) content).mono harchive

variable [IsPreorder FileSystem R]

theorem evolves_archive (bundle : Path) :
    Evolves R (Session.archive bundle (slotArchive s.stagingRoot p) : Session σ Unit) := by
  have hparents : Evolves R (makeParents (slotArchive s.stagingRoot p) : Session σ Unit) := by
    intro w
    refine h.files s.stagingRoot s.stagingRoot_mem w.files _ fun hready ↦ ?_
    have hgrown := grown_makeParents hready.wellFormed (hready.names (hsep.names_archive p))
      (by simp [slotArchive, Path.plainSteps_join isPlainName_archive])
      (hready.direct s.stagingRoot_mem
        ((root_prefix_home cwd _ p).trans (s.home_prefix_archivePlace cwd p)))
    rw [archivePlace_eq, List.dropLast_concat] at hgrown
    exact .of_grown hgrown
  have hwrite := evolves_writeArchive hsep h
  refine Evolves.files.bind fun fs ↦ ?_
  cases fs.directoryAt? bundle.bytes with
  | none => exact .throw _
  | some root =>
    refine hparents.bind fun _ ↦ (hwrite _).bind fun _ ↦ Evolves.files.bind fun fs ↦
      (hwrite _).bind fun _ ↦ ?_
    cases (distinctEntries [] (fs.archiveEntries root)).2 with
    | none => exact .pure _
    | some name => exact .throw _

theorem evolves_archiveBundle :
    Evolves R (archiveBundle env s.stagingRoot p (s.bundleDir p) s.host) := by
  have hreport (target : Path) : Evolves R (do
      report (.verbose s!"Archived companion bundle to {target.text}")
      return target : Session σ Path) := (Evolves.report _).bind fun _ ↦ .pure _
  refine (evolves_makeSlot hsep h).bind fun _ ↦ ?_
  by_cases hhost : s.host = .macos ∧ p.isMac
  · rw [if_pos hhost]
    have hditto : (.captured, dittoCommand (s.bundleDir p) (slotArchive s.stagingRoot p)) ∈
        steps s v p := by
      simp only [steps, if_pos (mac_iff.2 hhost)]
      exact List.mem_cons_of_mem _ List.mem_cons_self
    exact (Evolves.demand (h.commands _ hditto)).bind fun _ ↦ hreport _
  · rw [if_neg hhost]
    exact (evolves_archive hsep h (s.bundleDir p)).bind fun _ ↦ hreport _

end Stages

theorem evolves_verify [IsPreorder FileSystem R] (s : Settings) (archive : Path) (p : Platform) :
    Evolves R (verify s archive p : Session σ Artifact) := by
  have hread (path : Path) : Evolves R (Session.read path : Session σ Text.Bytes) :=
    .onFiles fun fs ↦ by rw [remaining_read]; exact refl_of R fs
  have hdigest (path : Path) : Evolves R (Session.digest path : Session σ String) :=
    (hread path).bind fun _ ↦ .pure _
  have hmeasure : Evolves R (do
      let size := (← Session.read (s.agentBinary p)).length
      let sha256 ← Session.digest (s.agentBinary p)
      report (.success s!"{(s.agentBinary p).text} ({size} bytes)")
      report (.verbose s!"SHA256: {sha256}")
      return ⟨p, s.agentBinary p, archive, size, sha256⟩ : Session σ Artifact) :=
    (hread _).bind fun _ ↦ (hdigest _).bind fun _ ↦ (Evolves.report _).bind fun _ ↦
      (Evolves.report _).bind fun _ ↦ .pure _
  have hthere : Evolves R (Session.isFile (s.agentBinary p) : Session σ Bool) :=
    Evolves.files.bind fun _ ↦ .pure _
  refine hthere.bind fun there ↦ ?_
  cases there with
  | false => exact (Evolves.throw _).bind fun _ ↦ hmeasure
  | true => exact hmeasure

variable [IsPreorder FileSystem R] (hsep : s.Separate cwd)
include hsep

theorem evolves_packagePlatform (h : Covers R env s cwd v p) :
    Evolves R (packagePlatform env s v p) := by
  have hclear : Evolves R (clearPlatform s p : Session σ Unit) :=
    (evolves_removeArchive hsep h).bind fun _ ↦ (evolves_removeBundle hsep h).bind fun _ ↦
      evolves_removeExecutable hsep h
  have hcompanion : Evolves R (publishCompanion env s v p) :=
    (Evolves.report _).bind fun _ ↦
      .demand (h.commands (.captured, companionCommand s p v) (by simp [steps]))
  have hagent : Evolves R (publishAgent env s v (slotArchive s.stagingRoot p) p) :=
    (Evolves.report _).bind fun _ ↦ .demand
      (h.commands (.captured, agentCommand s p v (slotArchive s.stagingRoot p))
        (List.mem_cons_of_mem _ (List.mem_append_right _ List.mem_cons_self)))
  refine (Evolves.report _).bind fun _ ↦ hclear.bind fun _ ↦ hcompanion.bind fun _ ↦
    (evolves_archiveBundle hsep h).bind_ok fun archive w w' hw ↦ ?_
  obtain rfl := archive_of_archiveBundle hw
  exact hagent.bind fun _ ↦ evolves_verify s _ p

theorem evolves_packageEach {ps : List Platform} (h : ∀ p ∈ ps, Covers R env s cwd v p) :
    Evolves R (packageEach env s v ps) := by
  induction ps with
  | nil => exact .pure []
  | cons p ps ih =>
    refine (evolves_packagePlatform hsep (h p List.mem_cons_self)).bind fun artifact ↦ ?_
    exact (ih fun q hq ↦ h q (List.mem_cons_of_mem p hq)).bind fun _ ↦ .pure _

end Packaging

end ReleaseTrain
