import ReleaseTrain.Proofs.PublishedExecutables

namespace ReleaseTrain

open FileSystem Session Settings

variable {σ : Type}

/-- One of several runs of packaging with the same settings: whether it is to clean, what version it
is for, the tools that it finds, and the removals that the system refuses it. -/
structure PackagingRun (σ : Type) where
  clean : Bool
  version : Version
  env : Surroundings σ
  tools : σ
  refusals : List (Location × List Location) := []

namespace PackagingRun

variable (run : PackagingRun σ) (s : Settings) (ps : List Platform) (fs : FileSystem)

def settings : Settings := { s with clean := run.clean }

def start : World σ := ⟨{ fs with refusals := run.refusals }, run.tools, []⟩

def session : Session σ PackageReport := Packaging.package run.env (run.settings s) ps run.version

def Succeeds : Prop := ∃ made w', run.session s ps (run.start fs) = .ok made w'

/-- The files that the run leaves, wherever it ends. -/
def leaves : FileSystem := (after (run.session s ps) (run.start fs)).files

def Published (p : Platform) (held : Content) : Prop :=
  Packaging.Published run.env (run.settings s) run.version ps (run.start fs) p held

def Reached (p : Platform) : Prop :=
  Packaging.Reached run.env (run.settings s) run.version ps (run.start fs) p

/-- The run was to clean, and its cleaning was stopped on the way. -/
def Stopped : Prop :=
  run.clean = true ∧ ∃ e w', Packaging.clean (run.settings s) (run.start fs) = .error e w'

/-- The run came to the platform without a cleaning, or its cleaning was stopped when the platform's
executable was gone. -/
def Displaces (p : Platform) : Prop :=
  run.clean = false ∧ run.Reached s ps fs p ∨
    run.Stopped s fs ∧ (run.leaves s ps fs).nodeAt? (s.agentBinary p).bytes true = none

theorem ready_start {cwd : Location} (h : s.Ready cwd fs) :
    Ready (run.settings s) cwd (run.start fs).files :=
  ⟨⟨h.wellFormed.once, h.wellFormed.above⟩, h.workingDirectory, h.linkFree⟩

end PackagingRun

namespace Packaging

variable {s : Settings} {cwd : Location} {ps : List Platform} {fs : FileSystem}
  {runs before later : List (PackagingRun σ)} {run : PackagingRun σ} {selector : String}

def filesAfter (s : Settings) (ps : List Platform) (fs : FileSystem)
    (runs : List (PackagingRun σ)) : FileSystem := runs.foldl (fun fs run ↦ run.leaves s ps fs) fs

theorem filesAfter_concat (runs : List (PackagingRun σ)) (run : PackagingRun σ) :
    filesAfter s ps fs (runs ++ [run]) = run.leaves s ps (filesAfter s ps fs runs) :=
  List.foldl_concat _ _ _ _

/-- What the marker vouches for when `run` wrote it after the runs `before`, and only the runs
`later` came since. -/
structure Vouched (s : Settings) (cwd : Location) (ps : List Platform) (fs : FileSystem)
    (before : List (PackagingRun σ)) (run : PackagingRun σ) (later : List (PackagingRun σ)) :
    Prop where
  /-- The run ended well, and no later one did. -/
  succeeded : run.Succeeds s ps (filesAfter s ps fs before)
  failed_since : ∀ mid r rest, later = mid ++ r :: rest →
    ¬r.Succeeds s ps (filesAfter s ps fs (before ++ run :: mid))
  /-- The marker says the run's version. -/
  marked : s.Marked cwd run.version (filesAfter s ps fs (before ++ run :: later))
  /-- Each platform's executable is in place as the run's own agent publish left it, unless a later
  run displaced it. -/
  executable : ∀ p ∈ ps, ∃ held, run.Published s ps (filesAfter s ps fs before) p held ∧
    (FileSystem.content (s.agentBinary p).bytes (filesAfter s ps fs (before ++ run :: later)) =
        .ok held (filesAfter s ps fs (before ++ run :: later)) ∨
      ∃ mid r rest, later = mid ++ r :: rest ∧
        r.Displaces s ps (filesAfter s ps fs (before ++ run :: mid)) p)

theorem ready_leaves (hsep : s.Separate cwd) (hready : s.Ready cwd fs)
    (hconfined : s.Confined cwd run.version run.env) : s.Ready cwd (run.leaves s ps fs) := by
  have hcareful := (hconfined.withClean run.clean).careful (hsep.withClean run.clean)
  exact (ready_of_package (hsep.withClean run.clean) hcareful (run.ready_start s fs hready)
    ps).of_withClean

theorem ready_filesAfter (hsep : s.Separate cwd) (hready : s.Ready cwd fs)
    (hconfined : ∀ run ∈ runs, s.Confined cwd run.version run.env) :
    s.Ready cwd (filesAfter s ps fs runs) := by
  induction runs using List.reverseRecOn with
  | nil => exact hready
  | append_singleton runs run ih =>
    rw [filesAfter_concat]
    refine ready_leaves hsep (ih fun r hr ↦ hconfined r (List.mem_append_left _ hr)) ?_
    exact hconfined run (List.mem_append_right _ (List.mem_singleton_self run))

theorem vouched_of_succeeds (hsep : s.Separate cwd) (hps : ps.Nodup)
    (hready : s.Ready cwd (filesAfter s ps fs before))
    (hconfined : s.Confined cwd run.version run.env)
    (h : run.Succeeds s ps (filesAfter s ps fs before)) : Vouched s cwd ps fs before run [] := by
  obtain ⟨made, w', hrun⟩ := h
  have hsep' := hsep.withClean run.clean
  have hconfined' := hconfined.withClean run.clean
  have hready' := run.ready_start s _ hready
  have hleaves : filesAfter s ps fs (before ++ [run]) = w'.files := by
    rw [filesAfter_concat, PackagingRun.leaves, after_of_ok hrun]
  refine ⟨⟨made, w', hrun⟩, fun mid r rest hnil ↦ by simp at hnil, ?_, fun p hp ↦ ?_⟩
  · rw [hleaves]
    exact (marked_of_package hsep' (hconfined'.careful hsep') hready' hrun).1
  · obtain ⟨held, hpublished, hstays⟩ :=
      published_of_package hsep' hconfined' hps hready' hrun hp
    rw [hleaves]
    exact ⟨held, hpublished, .inl hstays⟩

def Stays (s : Settings) (cwd : Location) (ps : List Platform) (fs : FileSystem)
    (run : PackagingRun σ) : Prop :=
  ∀ p ∈ ps,
    (run.leaves s ps fs).get? (s.executablePlace cwd p) = fs.get? (s.executablePlace cwd p) ∨
      run.Displaces s ps fs p

theorem stays_of_failed (hsep : s.Separate cwd) (hready : s.Ready cwd fs)
    (hconfined : s.Confined cwd run.version run.env) (hfailed : ¬run.Succeeds s ps fs) :
    (run.leaves s ps fs).get? (s.markerPlace cwd) = none ∨
      (run.leaves s ps fs).get? (s.markerPlace cwd) = fs.get? (s.markerPlace cwd) ∧
        Stays s cwd ps fs run := by
  have hleft : s.Ready cwd (run.leaves s ps fs) := ready_leaves hsep hready hconfined
  cases hrun : run.session s ps (run.start fs) with
  | ok made w' => exact absurd ⟨made, w', hrun⟩ hfailed
  | error e w' =>
    have hleaves : run.leaves s ps fs = w'.files := by
      rw [PackagingRun.leaves, after_of_error hrun]
    obtain hnone | ⟨hmarker, hkept⟩ := kept_of_package_error (hsep.withClean run.clean)
      (hconfined.withClean run.clean) (run.ready_start s fs hready) hrun
    · exact .inl (hleaves ▸ hnone)
    · refine .inr ⟨hleaves ▸ hmarker, fun p hp ↦ ?_⟩
      rw [hleaves]
      obtain hsame | hreached | ⟨⟨hwanted, hclean⟩, hgone⟩ := hkept p hp
      · exact .inl hsame
      · exact .inr (.inl hreached)
      · rw [hleaves] at hleft
        refine .inr (.inr ⟨⟨hwanted, e, w', hclean⟩, ?_⟩)
        rw [hleaves]
        exact nodeAt?_executable hsep hleft hgone

theorem Vouched.concat (h : Vouched s cwd ps fs before run later) (hsep : s.Separate cwd)
    (hready : s.Ready cwd (filesAfter s ps fs (before ++ run :: later))) {r : PackagingRun σ}
    (hconfined : s.Confined cwd r.version r.env)
    (hfailed : ¬r.Succeeds s ps (filesAfter s ps fs (before ++ run :: later)))
    (hmarker : (r.leaves s ps (filesAfter s ps fs (before ++ run :: later))).get?
      (s.markerPlace cwd) = (filesAfter s ps fs (before ++ run :: later)).get? (s.markerPlace cwd))
    (hstays : Stays s cwd ps (filesAfter s ps fs (before ++ run :: later)) r) :
    Vouched s cwd ps fs before run (later ++ [r]) := by
  have hleaves : filesAfter s ps fs (before ++ run :: (later ++ [r])) =
      r.leaves s ps (filesAfter s ps fs (before ++ run :: later)) := by
    rw [← List.cons_append, ← List.append_assoc, filesAfter_concat]
  refine ⟨h.succeeded, fun mid x rest hsplit ↦ ?_, ?_, fun p hp ↦ ?_⟩
  · -- The failed run is the new one or one of those before it.
    rcases List.eq_nil_or_concat rest with rfl | ⟨rest, y, rfl⟩
    · obtain ⟨rfl, hr⟩ := List.append_inj' hsplit rfl
      obtain rfl := List.singleton_inj.1 hr
      exact hfailed
    · rw [List.concat_eq_append, ← List.cons_append, ← List.append_assoc] at hsplit
      exact h.failed_since mid x rest (List.append_inj' hsplit rfl).1
  · obtain ⟨mode, hmarked⟩ := h.marked
    rw [hleaves]
    exact ⟨mode, hmarker.trans hmarked⟩
  · rw [hleaves]
    obtain ⟨held, hpublished, hthere | ⟨mid, x, rest, rfl, hdisplaced⟩⟩ := h.executable p hp
    · obtain hsame | hdisplaced := hstays p hp
      · have hstill := content_executable hsep hready (ready_leaves hsep hready hconfined)
          (fun node hnode ↦ hsame.trans hnode) hthere
        exact ⟨held, hpublished, .inl hstill⟩
      · exact ⟨held, hpublished, .inr ⟨later, r, [], rfl, hdisplaced⟩⟩
    · exact ⟨held, hpublished, .inr ⟨mid, x, rest ++ [r], by simp, hdisplaced⟩⟩

/-- By induction on the runs, the last one first: it ended well and vouches for what it made, or it
left no marker, or what was vouched for before still is. -/
theorem vouched_of_marker (hsep : s.Separate cwd) (hps : ps.Nodup) (hready : s.Ready cwd fs)
    (hempty : ∀ l, placeOf cwd s.outputRoot.bytes <+: l → l ≠ placeOf cwd s.outputRoot.bytes →
      fs.get? l = none)
    (hconfined : ∀ run ∈ runs, s.Confined cwd run.version run.env)
    (hmarker : (filesAfter s ps fs runs).get? (s.markerPlace cwd) ≠ none) :
    ∃ before run later, runs = before ++ run :: later ∧ Vouched s cwd ps fs before run later := by
  induction runs using List.reverseRecOn with
  | nil =>
    exact absurd (hempty _ (root_prefix_markerPlace s cwd) (markerPlace_ne_outputPlace s cwd))
      hmarker
  | append_singleton runs r ih =>
    have hbefore : ∀ run ∈ runs, s.Confined cwd run.version run.env :=
      fun run hrun ↦ hconfined run (List.mem_append_left _ hrun)
    have hlast := hconfined r (List.mem_append_right _ (List.mem_singleton_self r))
    have hready' : s.Ready cwd (filesAfter s ps fs runs) := ready_filesAfter hsep hready hbefore
    by_cases hsucceeds : r.Succeeds s ps (filesAfter s ps fs runs)
    · exact ⟨runs, r, [], rfl, vouched_of_succeeds hsep hps hready' hlast hsucceeds⟩
    rw [filesAfter_concat] at hmarker
    obtain hnone | ⟨hsame, hstays⟩ := stays_of_failed hsep hready' hlast hsucceeds
    · exact absurd hnone hmarker
    rw [hsame] at hmarker
    obtain ⟨before, run, later, rfl, hvouched⟩ := ih hbefore hmarker
    exact ⟨before, run, later ++ [r], by simp,
      hvouched.concat hsep hready' hlast hsucceeds hsame hstays⟩

end Packaging

namespace Rehearsal

open Packaging

variable {w : World Unit}

theorem ready_bare (s : Settings) : s.Ready [] bare := by
  have hlinks : ∀ e ∈ bare.entries, ∀ target, e.2 ≠ .link target := by
    simp [bare]
  exact ⟨.of_entries (by decide) (by decide), rfl, fun r _ ↦ .of_entries hlinks _⟩

theorem begin_bare (hw : w.files = bare) :
    ∃ w', beginPlatform settings .linuxX64 w = .ok () w' ∧ w'.files = bare := by
  have hslot : ifAny (FileSystem.removeFile (slotArchive settings.stagingRoot .linuxX64).bytes)
      w.files = .ok () bare := by
    rw [bytes_archive, hw]
    cbv
  have hbundle : ifAny (FileSystem.removeDirectory (settings.bundleDir .linuxX64).bytes) bare =
      .ok () bare := by
    rw [bytes_bundle]
    cbv
  have hexecutable : ifAny (FileSystem.removeFile (settings.agentBinary .linuxX64).bytes) bare =
      .ok () bare := by
    rw [bytes_executable]
    cbv
  exact begin_of_removals hslot hbundle hexecutable

/-- A first run, and one for the next version of which no command does anything: without a cleaning,
or with one that may not remove the marker. -/
def first : PackagingRun Unit := ⟨false, version, publishing agent binary, (), []⟩

def second : PackagingRun Unit := ⟨false, ⟨"1", "2", "4", none⟩, refusing, (), []⟩

def stopped : PackagingRun Unit :=
  ⟨true, second.version, refusing, (), [([[111]], [[[111], marker]])]⟩

theorem start_first : (first.start bare).files = bare := rfl

theorem start_second : (second.start marked).files = marked := rfl

theorem first_done : ∃ made w', first.session settings [.linuxX64] (first.start bare) =
    .ok made w' ∧ w'.files = marked := by
  obtain ⟨w₁, hbegin, hw₁⟩ := begin_bare start_first
  exact package_of_begin hbegin (.inr hw₁)

theorem second_refused : ∃ e w', second.session settings [.linuxX64] (second.start marked) =
    .error e w' ∧ w'.files = begunAgain := by
  obtain ⟨w₁, hbegin, hw₁⟩ := begin_marked start_second
  obtain ⟨e, w', heach, hw'⟩ := packageEach_refused hbegin second.version []
  refine ⟨e, w', ?_, hw'.trans hw₁⟩
  change package refusing settings [.linuxX64] second.version _ = _
  rw [package_eq]
  exact bind_eq_error.2 (.inr ⟨(), second.start marked, rfl, bind_of_error heach⟩)

theorem confined_refusing (v : Version) : settings.Confined [] v refusing :=
  ⟨fun _ _ _ _ ↦ .refl _ _, fun _ _ _ _ ↦ .refl _ _, fun _ _ _ _ ↦ .refl _ _⟩

theorem confined_runs : ∀ run ∈ [first, second], settings.Confined [] run.version run.env := by
  intro run hrun
  obtain rfl | rfl : run = first ∨ run = second := by simpa using hrun
  · exact confined_publishing agent binary
  · exact confined_refusing _

theorem empty_of_entries {s : Settings} {fs : FileSystem}
    (h : ∀ e ∈ fs.entries, (placeOf [] s.outputRoot.bytes).isPrefixOf e.1 →
      e.1 = placeOf [] s.outputRoot.bytes) (l : Location)
    (hbelow : placeOf [] s.outputRoot.bytes <+: l) (hne : l ≠ placeOf [] s.outputRoot.bytes) :
    fs.get? l = none := by
  have htop : l ≠ [] := by
    rintro rfl
    exact hne (List.prefix_nil.1 hbelow).symm
  rw [FileSystem.get?, if_neg htop, List.lookup_eq_none_iff]
  intro e he
  rw [bne_iff_ne]
  rintro rfl
  exact hne (h e he (List.isPrefixOf_iff_prefix.2 hbelow))

theorem empty_bare (l : Location) (hbelow : placeOf [] settings.outputRoot.bytes <+: l)
    (hne : l ≠ placeOf [] settings.outputRoot.bytes) : bare.get? l = none :=
  empty_of_entries (by decide) l hbelow hne

theorem files_after_first : filesAfter settings [.linuxX64] bare [first] = marked := by
  obtain ⟨made, w', hfirst, hw'⟩ := first_done
  change first.leaves settings [.linuxX64] bare = _
  rw [PackagingRun.leaves, after_of_ok hfirst, hw']

theorem not_succeeds_second :
    ¬second.Succeeds settings [.linuxX64] (filesAfter settings [.linuxX64] bare [first]) := by
  rintro ⟨made, w', hdone⟩
  obtain ⟨e, w'', hsecond, -⟩ := second_refused
  rw [files_after_first, hsecond] at hdone
  cases hdone

theorem files_after_second :
    filesAfter settings [.linuxX64] bare [first, second] = begunAgain := by
  obtain ⟨e, w', hsecond, hw'⟩ := second_refused
  change second.leaves settings _ (filesAfter settings [.linuxX64] bare [first]) = _
  rw [files_after_first, PackagingRun.leaves, after_of_error hsecond, hw']

theorem no_executable_begunAgain :
    begunAgain.nodeAt? (settings.agentBinary .linuxX64).bytes true = none := by
  rw [bytes_executable]
  cbv

end Rehearsal

namespace Packaging

open Rehearsal

end Packaging

end ReleaseTrain
