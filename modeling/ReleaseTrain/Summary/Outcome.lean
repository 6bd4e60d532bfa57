import ReleaseTrain.Pipeline
import ReleaseTrain.Summary.Duration
import ReleaseTrain.Summary.Size

/-!
What the operator is told at the end of a run.
-/

namespace ReleaseTrain.Summary

def artifact (a : Artifact) : List Report :=
  [.detail (s!"  {Text.padEnd 10 a.platform.id} {a.executable.text} " ++
      s!"({(Size.ofBytes a.size).text})"),
    .verbose s!"  sha256 {a.sha256}"]

def package (p : PackageReport) : List Report :=
  .detail s!"Artifacts ({p.artifacts.length}):" :: p.artifacts.flatMap artifact ++
    [.detail s!"Version marker: {p.versionMarker.text}"]

def publish : PublishOutcome → Report
  | .skipped => .detail "Push: skipped (--no-push)"
  | .loginDeclined => .warning "Push: not performed, registry login declined"
  | .pushed references => .detail ("Pushed: " ++ Text.join ", " references)

def image : ImageStage → List Report
  | .notRequested => []
  | .cancelled => [.warning "Image build cancelled by operator"]
  | .built b p =>
    .detail s!"Image: {b.primary.text}" ::
      (b.latest.map fun a ↦ .detail s!"Alias: {a.text}").toList ++ [publish p]

def ofOutcome (o : RunOutcome) (seconds : Int) : List Report :=
  [.heading "Summary", .detail s!"Version: {o.version.text}"] ++
    (o.package.map package).getD [] ++ image o.image ++
    [.success s!"Done in {durationText seconds}"]

/-- A failure with what it concerns and the way out of it. All of it is shown even to those who
want to see errors only. -/
def ofError (e : ReleaseError) : List Report :=
  .failure e.message ::
    ((e.subject.map fun s ↦ .failure s!"Affected: {s}").toList ++
      (e.followUp.map fun c ↦ .failure s!"Run manually: {c}").toList)

end ReleaseTrain.Summary
