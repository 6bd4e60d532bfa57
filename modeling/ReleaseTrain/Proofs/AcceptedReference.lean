import Mathlib.Data.List.DropRight
import ReleaseTrain.Proofs.Promotion

namespace ReleaseTrain

open Session

namespace Text

theorem blank_iff {s : String} : blank s = true ↔ ∀ c ∈ s.toList, isBlank c = true :=
  List.all_eq_true

theorem isBlank_of_isDigit {c : Char} (h : c.isDigit = true) : isBlank c = false := by
  have hdigit : 48 ≤ c.toNat ∧ c.toNat ≤ 57 := by
    simpa [Char.isDigit, UInt32.le_iff_toNat_le] using h
  simp only [isBlank, blankRanges, List.any_cons, List.any_nil, Bool.or_false, Bool.or_eq_false_iff,
    Bool.and_eq_false_iff, decide_eq_false_iff_not]
  omega

variable {sep : Char} {cs : List Char}

theorem exists_trimEnd (sep : Char) (cs : List Char) :
    ∃ n, cs = trimEnd sep cs ++ List.replicate n sep := by
  have hsplit : trimEnd sep cs ++ cs.rtakeWhile (· == sep) = cs :=
    List.rdropWhile_append_rtakeWhile
  have hseps : cs.rtakeWhile (· == sep) =
      List.replicate (cs.rtakeWhile (· == sep)).length sep := by
    refine List.eq_replicate_of_mem fun c hc ↦ ?_
    exact beq_iff_eq.1 (List.mem_rtakeWhile_imp (p := (· == sep)) hc)
  exact ⟨_, by rw [← hseps, hsplit]⟩

theorem trimEnd_append_replicate (h : sep ∉ cs) (n : Nat) :
    trimEnd sep (cs ++ List.replicate n sep) = cs := by
  induction n with
  | zero =>
    rw [List.replicate_zero, List.append_nil]
    refine List.rdropWhile_eq_self_iff.2 fun hne hlast ↦ h ?_
    exact beq_iff_eq.1 hlast ▸ List.getLast_mem hne
  | succ n ih =>
    rw [List.replicate_succ', ← List.append_assoc]
    exact (List.rdropWhile_concat_pos (· == sep) _ sep (beq_self_eq_true sep)).trans ih

theorem blank_trimEnd_iff {s : String} : blank (.ofList (trimEnd '/' s.toList)) = true ↔
    ∃ blanks n, s.toList = blanks ++ List.replicate n '/' ∧ ∀ c ∈ blanks, isBlank c = true := by
  rw [blank_iff, String.toList_ofList]
  constructor
  · intro hblank
    obtain ⟨n, hn⟩ := exists_trimEnd '/' s.toList
    exact ⟨_, n, hn, hblank⟩
  · rintro ⟨blanks, n, hs, hblanks⟩
    have hnotMem : '/' ∉ blanks := fun hmem ↦ absurd (hblanks _ hmem) (by decide)
    rwa [hs, trimEnd_append_replicate hnotMem]

end Text

theorem Version.WellFormed.not_blank_text {v : Version} (h : v.WellFormed) :
    Text.blank v.text = false := by
  obtain ⟨d, ds, hd⟩ := List.exists_cons_of_ne_nil h.major.1
  have hmajor : d ∈ v.major.toList := hd ▸ List.mem_cons_self
  have hmem : d ∈ v.text.toList := by
    rw [text]
    cases v.prerelease with
    | none => simp [toList_core, hmajor]
    | some p => simp [String.toList_append, toList_core, hmajor]
  have hdigit := List.all_eq_true.1 h.major.2 d hmajor
  rw [← Bool.not_eq_true, Text.blank_iff]
  intro hblank
  have := hblank d hmem
  rw [Text.isBlank_of_isDigit hdigit] at this
  cases this

namespace Config

variable {c c' : Config} {document : String}

theorem check_eq_ok_iff : c.check = .ok c' ↔
    c' = c ∧ Text.blank c.project.agentName = false ∧ Text.blank c.image.name = false := by
  unfold check
  split
  next hagent => simp [hagent]
  next hagent =>
  split
  next hname => simp [hname]
  next hname => simp [hagent, hname, eq_comm]

theorem not_blank_of_ofToml (h : ofToml document = .ok c) :
    Text.blank c.project.agentName = false ∧ Text.blank c.image.name = false := by
  unfold ofToml at h
  split at h
  · obtain ⟨rfl, hnames⟩ := check_eq_ok_iff.1 h
    exact hnames
  · cases h

end Config

theorem Arguments.not_blank_tag {a : Arguments} {given : ImageArguments} {tag : String}
    (h : a.complaint? = none) (hgiven : a.command.image? = some given)
    (htag : given.tag = some tag) : Text.blank tag = false := by
  rw [complaint?, hgiven, Option.bind_some, htag] at h
  exact Bool.eq_false_iff.2 fun hblank ↦ by simp [hblank] at h

namespace ImagePlan

variable {given : ImageArguments} {c : Config} {base : Path} {i : ImagePlan}

/-- There is one plan for an image, and there is none only if its registry is blank. -/
theorem ofArguments_eq_ok_iff : ofArguments given c base = .ok i ↔
    Text.blank (given.registry.getD c.image.registry) = false ∧ i = {
      registry := given.registry.getD c.image.registry
      name := given.imageName.getD c.image.name
      tag := given.tag
      dockerfile := Path.absolute ⟨c.image.dockerfile⟩ base
      context := Path.absolute ⟨c.image.context⟩ base
      platform := given.imagePlatform.getD c.image.platform
      buildConfiguration := c.image.buildConfiguration
      noCache := given.noCache
      publish := ⟨given.noPush, given.skipLoginCheck⟩
      assumeYes := given.yes } := by
  unfold ofArguments
  dsimp only
  split
  next hblank => simp [hblank]
  next hblank => simp [hblank, eq_comm]

theorem ofArguments_eq_error_iff {e : ReleaseError} : ofArguments given c base = .error e ↔
    e = .config "Registry cannot be empty" ∧
      Text.blank (given.registry.getD c.image.registry) = true := by
  unfold ofArguments
  dsimp only
  split
  next hblank => simp [hblank, eq_comm]
  next hblank => simp [hblank]

theorem ofArguments_eq_ok (h : ofArguments given c base = .ok i) :
    Text.blank i.registry = false ∧ i.registry = given.registry.getD c.image.registry ∧
      i.name = given.imageName.getD c.image.name ∧ i.tag = given.tag := by
  obtain ⟨hblank, rfl⟩ := ofArguments_eq_ok_iff.1 h
  exact ⟨hblank, rfl, rfl, rfl⟩

end ImagePlan

namespace Plan

variable {a : Arguments} {c : Config} {base : Path} {plan : Plan}

theorem ofArguments_eq_ok_iff : ofArguments a c base = .ok plan ↔ plan.version = a.version ∧
    plan.package = a.command.package?.map (fun p ↦ PackagePlan.ofArguments p c base) ∧
    a.command.image?.mapM (fun i ↦ ImagePlan.ofArguments i c base) = .ok plan.image := by
  obtain ⟨version, package, image⟩ := plan
  unfold ofArguments
  cases a.command.image?.mapM fun i ↦ ImagePlan.ofArguments i c base with
  | error e => simp [bind, Except.bind]
  | ok planned => simp [bind, Except.bind, pure, Except.pure, eq_comm]

theorem image_of_ofArguments {i : ImagePlan} (h : ofArguments a c base = .ok plan)
    (hi : plan.image = some i) :
    ∃ given, a.command.image? = some given ∧ ImagePlan.ofArguments given c base = .ok i := by
  obtain ⟨-, -, himage⟩ := ofArguments_eq_ok_iff.1 h
  rw [hi] at himage
  cases hgiven : a.command.image? with
  | none =>
    rw [hgiven] at himage
    cases himage
  | some given =>
    rw [hgiven] at himage
    change (ImagePlan.ofArguments given c base).map some = .ok (some i) at himage
    cases hplanned : ImagePlan.ofArguments given c base with
    | error e =>
      rw [hplanned] at himage
      cases himage
    | ok j =>
      rw [hplanned] at himage
      cases himage
      exact ⟨given, rfl, hplanned⟩

end Plan

/-- The words of a command line and a document pass all checks, and together they say what is
planned. -/
structure Accepted (environment : Option String) (words : List String) (document : String)
    (base : Path) (a : Arguments) (c : Config) (plan : Plan) : Prop where
  parsed : CommandLine.parse environment words = .ok a
  valid : a.complaint? = none
  configured : Config.ofToml document = .ok c
  planned : Plan.ofArguments a c base = .ok plan

namespace Pipeline

/-- Whatever command line, setting and document are accepted, the image of the plan is built under a
reference whose tag is not blank. Its name is blank exactly if an option gave a blank one, and its
registry exactly if the one that was chosen has nothing but separators behind its blanks. -/
theorem accepted_reference {environment : Option String} {words : List String} {document : String}
    {base : Path} {a : Arguments} {c : Config} {plan : Plan} {i : ImagePlan} {v : Version}
    (h : Accepted environment words document base a c plan) (hi : plan.image = some i)
    (hv : Version.parse plan.version = .ok v) :
    let r := i.reference v
    (∀ (σ : Type) (env : Surroundings σ) credentials w o image outcome,
        result (run env credentials plan) w = .ok o → o.image = .built image outcome →
          image.primary = r) ∧
      Text.blank r.tag = false ∧
      ∃ given, a.command.image? = some given ∧
        (Text.blank r.name = true ↔ ∃ name, given.imageName = some name ∧ Text.blank name = true) ∧
        (Text.blank r.registry = true ↔
          ∃ blanks n, (given.registry.getD c.image.registry).toList =
            blanks ++ List.replicate (n + 1) '/' ∧ ∀ ch ∈ blanks, Text.isBlank ch = true) := by
  intro r
  obtain ⟨given, hgiven, himage⟩ := Plan.image_of_ofArguments h.planned hi
  obtain ⟨hblank, hregistry, hname, htag⟩ := ImagePlan.ofArguments_eq_ok himage
  refine ⟨?_, ?_, given, hgiven, ?_, ?_⟩
  · intro σ env credentials w o image outcome ho hbuilt
    have hcourse := course_run env credentials plan w
    rw [ho] at hcourse
    rw [(hcourse.built_eq hi hv hbuilt).1]
  · have htext : r.tag = given.tag.getD v.text := congrArg (·.getD v.text) htag
    rw [htext]
    cases hgivenTag : given.tag with
    | none => exact (Version.parse_eq_ok hv).1.not_blank_text
    | some tag => exact Arguments.not_blank_tag h.valid hgiven hgivenTag
  · have htext : r.name = given.imageName.getD c.image.name := hname
    rw [htext]
    cases given.imageName with
    | none => simp [(Config.not_blank_of_ofToml h.configured).2]
    | some name => simp
  · rw [← hregistry]
    refine Text.blank_trimEnd_iff.trans ?_
    constructor
    · rintro ⟨blanks, n, htext, hblanks⟩
      cases n with
      | zero =>
        -- Without a separator at its end the registry would have been blank itself.
        rw [List.replicate_zero, List.append_nil] at htext
        rw [Text.blank_iff.2 (htext ▸ hblanks)] at hblank
        cases hblank
      | succ n => exact ⟨blanks, n, htext, hblanks⟩
    · rintro ⟨blanks, n, htext, hblanks⟩
      exact ⟨blanks, n + 1, htext, hblanks⟩

theorem accepted_reference_rehearsed :
    let a : Arguments := ⟨"1.2.3", .image { registry := some "ghcr.io/acme/" }, none, false, false⟩
    let i : ImagePlan := ⟨"ghcr.io/acme/", "remote-agent", none, ⟨"/work/Dockerfile"⟩, ⟨"/work"⟩,
      "linux/amd64", "Release", false, ⟨false, false⟩, false⟩
    let plan : Plan := ⟨"1.2.3", none, some i⟩
    let v : Version := ⟨"1", "2", "3", none⟩
    Accepted (some "ghcr.io/acme/") ["image", "--version", "1.2.3"] "" ⟨"/work"⟩ a {} plan ∧
      Version.parse plan.version = .ok v ∧
      (i.reference v).text = "ghcr.io/acme/remote-agent:1.2.3" ∧
      Text.blank (i.reference v).tag = false ∧ Text.blank (i.reference v).name = false := by
  intro a i plan v
  have h : Accepted (some "ghcr.io/acme/") ["image", "--version", "1.2.3"] "" ⟨"/work"⟩ a {} plan :=
    ⟨rfl, rfl, by decide +kernel, by decide +kernel⟩
  have hv : Version.parse plan.version = .ok v := by
    change Version.parse "1.2.3" = _
    rfl
  obtain ⟨-, htag, given, hgiven, hname, -⟩ := accepted_reference h rfl hv
  refine ⟨h, hv, by decide +kernel, htag, ?_⟩
  cases Option.some.inj hgiven
  rw [← Bool.not_eq_true, hname]
  simp

/-- A name that is empty, and a registry that is only a separator, are accepted. -/
theorem unnamed_reference_accepted :
    let v : Version := ⟨"1", "2", "3", none⟩
    let planned (registry name : String) : ImagePlan := ⟨registry, name, none,
      ⟨"/work/Dockerfile"⟩, ⟨"/work"⟩, "linux/amd64", "Release", false, ⟨false, false⟩, false⟩
    (∃ a, Accepted none ["image", "--version", "1.2.3", "--image", ""] "" ⟨"/work"⟩ a {}
        ⟨"1.2.3", none, some (planned "docker.io/library" "")⟩ ∧
      Text.blank ((planned "docker.io/library" "").reference v).name = true) ∧
    ∃ a, Accepted none ["image", "--version", "1.2.3", "--registry", "/"] "" ⟨"/work"⟩ a {}
        ⟨"1.2.3", none, some (planned "/" "remote-agent")⟩ ∧
      Text.blank ((planned "/" "remote-agent").reference v).registry = true := by
  intro v planned
  refine ⟨⟨⟨"1.2.3", .image { imageName := some "" }, none, false, false⟩, ?_, by decide +kernel⟩,
    ⟨⟨"1.2.3", .image { registry := some "/" }, none, false, false⟩, ?_, by decide +kernel⟩⟩
  · exact ⟨rfl, rfl, by decide +kernel, by decide +kernel⟩
  · exact ⟨rfl, rfl, by decide +kernel, by decide +kernel⟩

end Pipeline

end ReleaseTrain
