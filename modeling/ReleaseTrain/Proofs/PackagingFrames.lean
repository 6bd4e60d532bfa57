import ReleaseTrain.Packaging.Packager
import ReleaseTrain.Proofs.Exchange
import ReleaseTrain.Proofs.Resolution

namespace ReleaseTrain

open Session

variable {σ α : Type}

theorem Session.onFiles_eq_ok {cause : FileSystem.Failure → ReleaseError}
    {action : FileSystem.Action α} {w w' : World σ} {a : α} :
    onFiles cause action w = .ok a w' ↔
      action w.files = .ok a w'.files ∧ w' = { w with files := w'.files } := by
  unfold onFiles
  cases haction : action w.files with
  | ok b files =>
    constructor
    · intro h
      cases h
      exact ⟨rfl, rfl⟩
    · intro h
      obtain ⟨h, hw⟩ := h
      cases h
      rw [hw]
  | error failure files =>
    constructor
    · intro h
      cases h
    · intro h
      cases h.1

namespace Packaging

theorem package_eq (env : Surroundings σ) (s : Settings) (ps : List Platform) (v : Version) :
    package env s ps v = (do
      (if s.clean then clean s else pure ())
      let artifacts ← packageEach env s v ps
      markVersion s v
      return ⟨v, artifacts, s.versionMarker⟩) := by
  unfold package
  cases s.clean <;> simp

theorem content_of_markVersion {s : Settings} {v : Version} {w w' : World σ}
    (h : markVersion s v w = .ok () w') :
    FileSystem.content s.versionMarker.bytes w'.files =
      .ok (.bytes (Text.encode v.text)) w'.files := by
  obtain ⟨_, w₁, hwrite, hreport⟩ := bind_eq_ok.1 h
  obtain ⟨_, w₂, -, hwrite⟩ := bind_eq_ok.1 hwrite
  cases hreport
  exact FileSystem.content_of_write (onFiles_eq_ok.1 hwrite).1

theorem marker_of_package {env : Surroundings σ} {s : Settings} {ps : List Platform} {v : Version}
    {w w' : World σ} {made : PackageReport} (h : package env s ps v w = .ok made w') :
    made.version = v ∧ FileSystem.content s.versionMarker.bytes w'.files =
      .ok (.bytes (Text.encode v.text)) w'.files := by
  rw [package_eq] at h
  obtain ⟨_, w₁, -, h⟩ := bind_eq_ok.1 h
  obtain ⟨artifacts, w₂, -, h⟩ := bind_eq_ok.1 h
  obtain ⟨_, w₃, hmark, h⟩ := bind_eq_ok.1 h
  cases h
  exact ⟨rfl, content_of_markVersion hmark⟩

end Packaging

end ReleaseTrain
