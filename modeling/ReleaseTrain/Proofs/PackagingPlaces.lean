import ReleaseTrain.Packaging.Settings
import ReleaseTrain.Proofs.FileEffects

namespace ReleaseTrain

open Text (Bytes)

open FileSystem

namespace Platform

variable {p q : Platform}

theorem isPlainName_id (p : Platform) : Path.IsPlainName p.id := by
  cases p <;> exact ⟨by decide, by decide, by decide, by decide⟩

theorem id_inj : p.id = q.id ↔ p = q := by
  cases p <;> cases q <;> decide

theorem isPlainName_binaryName {name : String} (h : Path.IsPlainName name) (p : Platform) :
    Path.IsPlainName (p.binaryName name) := by
  have hexe : Path.IsPlainName (name ++ ".exe") := by
    have hlong (t : String) (ht : t.length < 4) : name ++ ".exe" ≠ t := by
      rintro rfl
      rw [String.length_append] at ht
      have : ".exe".length = 4 := by decide
      omega
    refine ⟨hlong "" (by decide), hlong "." (by decide), hlong ".." (by decide), ?_⟩
    rw [String.toList_append, List.mem_append]
    exact fun hmem ↦ hmem.elim h.no_separator (by decide)
  have hbare : Path.IsPlainName (name ++ "") := by rwa [String.append_empty]
  cases p with
  | winX64 | winX86 => exact hexe
  | linuxX64 | osxX64 | osxArm64 => exact hbare

end Platform

theorem isPlainName_archive : Path.IsPlainName "companion.zip" :=
  ⟨by decide, by decide, by decide, by decide⟩

theorem isPlainName_marker : Path.IsPlainName "version.txt" :=
  ⟨by decide, by decide, by decide, by decide⟩

namespace Settings

variable {s : Settings} {cwd : Location} {fs fs' : FileSystem} {r r' : Path} {p q : Platform}

/-- The directories that packaging works in. -/
def roots (s : Settings) : List Path := [s.outputRoot, s.stagingRoot, s.companionRoot]

/-- The roots are named without `..`, as the configured ones are, and the output root lies in
neither of the others, nor they in it, so its path is not the empty one; the agent's name is that of
a file. -/
structure Separate (s : Settings) (cwd : Location) : Prop where
  no_up : ∀ r ∈ s.roots, stepUp ∉ plainSteps r.bytes
  outputRoot_ne : s.outputRoot.bytes ≠ []
  apart_staging : Apart (placeOf cwd s.outputRoot.bytes) (placeOf cwd s.stagingRoot.bytes)
  apart_companion : Apart (placeOf cwd s.outputRoot.bytes) (placeOf cwd s.companionRoot.bytes)
  agentName : Path.IsPlainName s.agentName

/-- No root lies in another one. -/
structure Disjoint (s : Settings) (cwd : Location) : Prop extends Separate s cwd where
  apart_bundles : Apart (placeOf cwd s.stagingRoot.bytes) (placeOf cwd s.companionRoot.bytes)

/-- The files before a platform is packaged, whatever an earlier run left: no link is near the
roots. -/
structure Ready (s : Settings) (cwd : Location) (fs : FileSystem) : Prop where
  wellFormed : fs.WellFormed
  workingDirectory : fs.workingDirectory = cwd
  linkFree : ∀ r ∈ s.roots, fs.LinkFree (placeOf cwd r.bytes)

theorem Separate.withClean (h : s.Separate cwd) (c : Bool) :
    Separate { s with clean := c } cwd :=
  ⟨h.no_up, h.outputRoot_ne, h.apart_staging, h.apart_companion, h.agentName⟩

theorem Disjoint.withClean (h : s.Disjoint cwd) (c : Bool) :
    Disjoint { s with clean := c } cwd := ⟨h.toSeparate.withClean c, h.apart_bundles⟩

theorem Ready.withClean (h : s.Ready cwd fs) (c : Bool) : Ready { s with clean := c } cwd fs :=
  ⟨h.wellFormed, h.workingDirectory, h.linkFree⟩

theorem Ready.of_withClean {c : Bool} (h : Ready { s with clean := c } cwd fs) : s.Ready cwd fs :=
  ⟨h.wellFormed, h.workingDirectory, h.linkFree⟩

theorem Disjoint.of_config {c : ProjectConfig} {base : Path} (habsolute : base.isAbsolute = true)
    (hbase : stepUp ∉ plainSteps base.bytes) (hname : Path.IsPlainName c.agentName)
    (hapart : (ofConfig c base).roots.Pairwise fun r r' ↦
      Apart (placeOf cwd r.bytes) (placeOf cwd r'.bytes)) :
    (ofConfig c base).Disjoint cwd := by
  obtain ⟨houtput, hstaging, -⟩ := by simpa only [roots, List.pairwise_cons] using hapart
  refine ⟨⟨fun r hr ↦ ?_, Path.bytes_absolute_ne_nil habsolute _, houtput _ (by simp),
    houtput _ (by simp), hname⟩, hstaging _ (by simp)⟩
  simp only [roots, List.mem_cons, List.not_mem_nil, or_false] at hr
  rcases hr with rfl | rfl | rfl
  all_goals exact Path.notMem_plainSteps_absolute hbase _

theorem outputRoot_mem (s : Settings) : s.outputRoot ∈ s.roots := List.mem_cons_self

theorem stagingRoot_mem (s : Settings) : s.stagingRoot ∈ s.roots :=
  List.mem_cons_of_mem _ List.mem_cons_self

theorem companionRoot_mem (s : Settings) : s.companionRoot ∈ s.roots := by simp [roots]

/-- A platform's own directory beneath a root. -/
def home (cwd : Location) (r : Path) (p : Platform) : Location := placeOf cwd (r.join p.id).bytes

theorem home_eq (cwd : Location) (r : Path) (p : Platform) :
    home cwd r p = placeOf cwd r.bytes ++ [Text.encode p.id] := placeOf_join p.isPlainName_id r

theorem home_ne_nil (cwd : Location) (r : Path) (p : Platform) : home cwd r p ≠ [] := by
  simp [home_eq]

theorem apart_home (cwd : Location) (r : Path) (hne : p ≠ q) :
    Apart (home cwd r p) (home cwd r q) := by
  rw [home_eq, home_eq]
  exact .of_ne (fun hid ↦ hne (Platform.id_inj.1 (Text.encode_inj.1 hid))) _

theorem root_prefix_home (cwd : Location) (r : Path) (p : Platform) :
    placeOf cwd r.bytes <+: home cwd r p := by
  rw [home_eq]
  exact List.prefix_append _ _

/-- Where the executable, the archive of the bundle and the version's marker go. -/
def executablePlace (s : Settings) (cwd : Location) (p : Platform) : Location :=
  placeOf cwd (s.agentBinary p).bytes

def archivePlace (s : Settings) (cwd : Location) (p : Platform) : Location :=
  placeOf cwd (slotArchive s.stagingRoot p).bytes

def markerPlace (s : Settings) (cwd : Location) : Location := placeOf cwd s.versionMarker.bytes

theorem archivePlace_eq (s : Settings) (cwd : Location) (p : Platform) :
    s.archivePlace cwd p = home cwd s.stagingRoot p ++ [Text.encode "companion.zip"] :=
  placeOf_join isPlainName_archive _

theorem markerPlace_eq (s : Settings) (cwd : Location) :
    s.markerPlace cwd = placeOf cwd s.outputRoot.bytes ++ [Text.encode "version.txt"] :=
  placeOf_join isPlainName_marker _

namespace Separate

variable (h : s.Separate cwd)
include h

theorem executablePlace_eq (p : Platform) : s.executablePlace cwd p =
    home cwd s.outputRoot p ++ [Text.encode (p.binaryName s.agentName)] :=
  placeOf_join (p.isPlainName_binaryName h.agentName) _

theorem names_root (hr : r ∈ s.roots) : Names cwd r.bytes (placeOf cwd r.bytes) :=
  names_placeOf (h.no_up r hr)

theorem names_home (hr : r ∈ s.roots) (p : Platform) :
    Names cwd (r.join p.id).bytes (home cwd r p) := by
  rw [home_eq]
  exact (h.names_root hr).join p.isPlainName_id

theorem names_executable (p : Platform) :
    Names cwd (s.agentBinary p).bytes (s.executablePlace cwd p) := by
  rw [h.executablePlace_eq]
  exact (h.names_home s.outputRoot_mem p).join (p.isPlainName_binaryName h.agentName)

theorem names_archive (p : Platform) :
    Names cwd (slotArchive s.stagingRoot p).bytes (s.archivePlace cwd p) := by
  rw [archivePlace_eq]
  exact (h.names_home s.stagingRoot_mem p).join isPlainName_archive

theorem names_marker : Names cwd s.versionMarker.bytes (s.markerPlace cwd) := by
  rw [markerPlace_eq]
  exact (h.names_root s.outputRoot_mem).join isPlainName_marker

theorem apart_output (hr : r ∈ s.roots) (hne : r ≠ s.outputRoot) :
    Apart (placeOf cwd r.bytes) (placeOf cwd s.outputRoot.bytes) := by
  simp only [roots, List.mem_cons, List.not_mem_nil, or_false] at hr
  rcases hr with rfl | rfl | rfl
  · exact absurd rfl hne
  · exact h.apart_staging.symm
  · exact h.apart_companion.symm

theorem stagingRoot_ne : s.stagingRoot ≠ s.outputRoot := by
  intro heq
  have hapart := h.apart_staging
  rw [heq] at hapart
  exact hapart.1 (List.prefix_refl _)

theorem companionRoot_ne : s.companionRoot ≠ s.outputRoot := by
  intro heq
  have hapart := h.apart_companion
  rw [heq] at hapart
  exact hapart.1 (List.prefix_refl _)

theorem apart_agentDir (hr : r ∈ s.roots) (hne : r ≠ s.outputRoot ∨ p ≠ q) :
    Apart (home cwd r p) (home cwd s.outputRoot q) := by
  by_cases heq : r = s.outputRoot
  · subst heq
    exact apart_home cwd _ (hne.resolve_left fun hrr ↦ hrr rfl)
  · exact (h.apart_output hr heq).beneath (root_prefix_home cwd r p) (root_prefix_home cwd _ q)

end Separate

namespace Disjoint

variable (h : s.Disjoint cwd)
include h

theorem apart_roots (hr : r ∈ s.roots) (hr' : r' ∈ s.roots) (hne : r ≠ r') :
    Apart (placeOf cwd r.bytes) (placeOf cwd r'.bytes) := by
  have hbundles := h.apart_bundles
  by_cases hout : r = s.outputRoot
  · subst hout
    exact (h.apart_output hr' hne.symm).symm
  by_cases hout' : r' = s.outputRoot
  · subst hout'
    exact h.apart_output hr hout
  have hother {r : Path} (hr : r ∈ s.roots) (hout : r ≠ s.outputRoot) :
      r = s.stagingRoot ∨ r = s.companionRoot := by simpa [roots, hout] using hr
  rcases hother hr hout with rfl | rfl <;> rcases hother hr' hout' with rfl | rfl
  all_goals first | exact absurd rfl hne | assumption | exact Apart.symm ‹_›

theorem stagingRoot_ne_companionRoot : s.stagingRoot ≠ s.companionRoot := by
  intro heq
  have hapart := h.apart_bundles
  rw [heq] at hapart
  exact hapart.1 (List.prefix_refl _)

/-- No platform's directory lies in another platform's, nor in the one that the same platform has
beneath another root. -/
theorem apart_homes (hr : r ∈ s.roots) (hr' : r' ∈ s.roots) (hne : r ≠ r' ∨ p ≠ q) :
    Apart (home cwd r p) (home cwd r' q) := by
  by_cases heq : r = r'
  · subst heq
    exact apart_home cwd _ (hne.resolve_left fun hrr ↦ hrr rfl)
  · exact (h.apart_roots hr hr' heq).beneath (root_prefix_home cwd r p) (root_prefix_home cwd r' q)

end Disjoint

namespace Ready

variable (h : s.Ready cwd fs)
include h

theorem mono (hfs' : fs'.WellFormed) (hcwd : fs'.workingDirectory = fs.workingDirectory)
    (hlinks : ∀ m t, fs'.get? m = some (.link t) → fs.get? m = some (.link t)) :
    s.Ready cwd fs' :=
  ⟨hfs', hcwd.trans h.workingDirectory, fun r hr m hm t hget ↦
    h.linkFree r hr m hm t (hlinks m t hget)⟩

theorem within {o : Location} (hwithin : Within o fs fs') : s.Ready cwd fs' :=
  h.mono (hwithin.wellFormed h.wellFormed) hwithin.workingDirectory hwithin.links

theorem shrunk (hshrunk : Shrunk fs fs') : s.Ready cwd fs' :=
  h.mono (hshrunk.wellFormed h.wellFormed) hshrunk.workingDirectory fun _ _ ↦ hshrunk.was

theorem direct {l : Location} (hr : r ∈ s.roots) (hl : placeOf cwd r.bytes <+: l) : fs.Direct l :=
  (h.linkFree r hr).direct hl

theorem direct_home (hr : r ∈ s.roots) (p : Platform) : fs.Direct (home cwd r p) :=
  h.direct hr (root_prefix_home cwd r p)

theorem names {path : Bytes} {l : Location} (hn : Names cwd path l) :
    Names fs.workingDirectory path l := h.workingDirectory.symm ▸ hn

end Ready

end Settings

end ReleaseTrain
