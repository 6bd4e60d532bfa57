import Mathlib
import ReleaseTrain.Proofs.AcceptedReference
import ReleaseTrain.Proofs.SectionFields

namespace ReleaseTrain

open Toml Toml.Table

namespace Text

def Inked (s : String) : Prop := ∃ ch ∈ s.toList, isBlank ch = false

theorem blank_eq_false_iff {s : String} : blank s = false ↔ Inked s := by
  rw [← Bool.not_eq_true, blank_iff]
  simp [Inked]

end Text

/-- The section as a document has it that leaves nothing to the defaults. -/
def ProjectConfig.toTable (c : ProjectConfig) : Table :=
  [("agent_project", .string c.agentProject), ("companion_project", .string c.companionProject),
    ("agent_name", .string c.agentName), ("configuration", .string c.configuration),
    ("output_dir", .string c.outputDir), ("staging_dir", .string c.stagingDir),
    ("companion_output_dir", .string c.companionOutputDir),
    ("extra_clean_dirs", .array (c.extraCleanDirs.map .string))]

def ImageConfig.toTable (c : ImageConfig) : Table :=
  [("registry", .string c.registry), ("name", .string c.name), ("dockerfile", .string c.dockerfile),
    ("context", .string c.context), ("platform", .string c.platform),
    ("build_configuration", .string c.buildConfiguration)]

theorem ProjectConfig.allShow_fields : Field.AllShow fields toTable where
  shows := by
    simp only [fields, List.forall_mem_cons]
    refine ⟨?_, ?_, ?_, ?_, ?_, ?_, ?_, ?strings, by simp⟩
    case strings => exact Field.shows_strings (fun a ↦ ⟨_, rfl⟩) fun a ss ↦ rfl
    all_goals exact Field.shows_string (fun a ↦ ⟨_, rfl⟩) fun a s ↦ rfl
  keys _ := rfl
  once := by decide
  declares a b := by
    simp only [toTable, List.forall_mem_cons]
    exact ⟨declares_string rfl, declares_string rfl, declares_string rfl, declares_string rfl,
      declares_string rfl, declares_string rfl, declares_string rfl, declares_strings rfl, by simp⟩
  injective a b h := by
    have hstrings : Function.Injective (List.map Toml.Value.string) :=
      List.map_injective_iff.2 fun s t hst ↦ Toml.Value.string.inj hst
    cases a
    cases b
    simpa [toTable, hstrings.eq_iff] using h

theorem ImageConfig.allShow_fields : Field.AllShow fields toTable where
  shows := by
    simp only [fields, List.forall_mem_cons]
    refine ⟨?_, ?_, ?_, ?_, ?_, ?_, by simp⟩
    all_goals exact Field.shows_string (fun a ↦ ⟨_, rfl⟩) fun a s ↦ rfl
  keys _ := rfl
  once := by decide
  declares a b := by
    simp only [toTable, List.forall_mem_cons]
    exact ⟨declares_string rfl, declares_string rfl, declares_string rfl, declares_string rfl,
      declares_string rfl, declares_string rfl, by simp⟩
  injective a b h := by
    cases a
    cases b
    simpa [toTable] using h

/-- What a section becomes by the value under its name, or by there being none. -/
def Field.Becomes {α : Type} (fields : List (Field α)) (start old : α) :
    Option Toml.Value → α → Prop
  | some v, new => setSection fields start v = .ok new
  | none, new => new = old

namespace Field.Becomes

variable {α : Type} {fields : List (Field α)} {start old new : α} {k key : String}
  {v : Toml.Value} {table : Table}

theorem cons_self_iff :
    Becomes fields start old (((k, v) :: table).lookup k) new ↔
      setSection fields start v = .ok new := by
  rw [List.lookup_cons_self]
  rfl

theorem cons_of_ne_iff (h : key ≠ k) :
    Becomes fields start old (((k, v) :: table).lookup key) new ↔
      Becomes fields start old (table.lookup key) new := by
  rw [List.lookup_cons, beq_false_of_ne h]

theorem section_iff (h : HasSection table k) :
    Becomes fields start start (table.lookup k) new ↔
      (under table k).foldlM (setByKey fields) start = .ok new := by
  cases hv : table.lookup k with
  | some v =>
    obtain ⟨entries, rfl⟩ := h v hv
    rw [under_eq hv]
    rfl
  | none =>
    rw [under, hv]
    exact ⟨fun h ↦ congrArg _ (Eq.symm h), fun h ↦ (Except.ok.inj h).symm⟩

theorem notMem_iff (h : k ∉ table.map Prod.fst) :
    Becomes fields start old (table.lookup k) new ↔ new = old := by
  rw [lookup_eq_none_iff_notMem.2 h]
  rfl

end Field.Becomes

namespace Config

open ReleaseTrain.Field

variable {table : Table} {c c' : Config} {e : String × Toml.Value}

theorem setByKey_eq_ok_iff : setByKey fields c e = .ok c' ↔
    (e.1 = "project" ∧ setSection ProjectConfig.fields {} e.2 = .ok c'.project ∧
      c'.image = c.image) ∨
    (e.1 = "image" ∧ setSection ImageConfig.fields {} e.2 = .ok c'.image ∧
      c'.project = c.project) := by
  obtain ⟨k, v⟩ := e
  obtain ⟨project', image'⟩ := c'
  by_cases hproject : k = "project"
  · subst hproject
    change (setSection ProjectConfig.fields {} v >>= fun p ↦ .ok { c with project := p }) = _ ↔ _
    rw [Toml.bind_eq_ok]
    simp [eq_comm]
  by_cases himage : k = "image"
  · subst himage
    change (setSection ImageConfig.fields {} v >>= fun i ↦ .ok { c with image := i }) = _ ↔ _
    rw [Toml.bind_eq_ok]
    simp [eq_comm, and_comm]
  · simp [setByKey, fields, Ne.symm hproject, Ne.symm himage, hproject, himage]

theorem foldlM_fields_iff (once : (table.map Prod.fst).Nodup) :
    table.foldlM (setByKey fields) c = .ok c' ↔
      (∀ e ∈ table, e.1 = "project" ∨ e.1 = "image") ∧
        Becomes ProjectConfig.fields {} c.project (table.lookup "project") c'.project ∧
        Becomes ImageConfig.fields {} c.image (table.lookup "image") c'.image := by
  induction table generalizing c with
  | nil =>
    obtain ⟨p, i⟩ := c
    obtain ⟨p', i'⟩ := c'
    simp [Becomes, pure, Except.pure, eq_comm]
  | cons e table ih =>
    obtain ⟨k, v⟩ := e
    rw [List.map_cons, List.nodup_cons] at once
    obtain ⟨hnew, once⟩ := once
    -- The entry is the only one of its section, so what it makes of that is not changed again.
    rw [List.foldlM_cons, Toml.bind_eq_ok, List.forall_mem_cons]
    simp only [setByKey_eq_ok_iff, ih once]
    constructor
    · rintro ⟨⟨project, image⟩, ⟨rfl, hset, rfl⟩ | ⟨rfl, hset, rfl⟩, hknown, hproject, himage⟩
      · obtain rfl := (Becomes.notMem_iff hnew).1 hproject
        exact ⟨⟨.inl rfl, hknown⟩, Becomes.cons_self_iff.2 hset,
          (Becomes.cons_of_ne_iff (by decide)).2 himage⟩
      · obtain rfl := (Becomes.notMem_iff hnew).1 himage
        exact ⟨⟨.inr rfl, hknown⟩, (Becomes.cons_of_ne_iff (by decide)).2 hproject,
          Becomes.cons_self_iff.2 hset⟩
    · rintro ⟨⟨rfl | rfl, hknown⟩, hproject, himage⟩
      · exact ⟨⟨c'.project, c.image⟩, .inl ⟨rfl, Becomes.cons_self_iff.1 hproject, rfl⟩, hknown,
          (Becomes.notMem_iff hnew).2 rfl, (Becomes.cons_of_ne_iff (by decide)).1 himage⟩
      · exact ⟨⟨c.project, c'.image⟩, .inr ⟨rfl, Becomes.cons_self_iff.1 himage, rfl⟩, hknown,
          (Becomes.cons_of_ne_iff (by decide)).1 hproject, (Becomes.notMem_iff hnew).2 rfl⟩

/-- What a document has to be like to make a configuration. -/
structure Fits (table : Table) : Prop where
  known : ∀ e ∈ table, e.1 = "project" ∨ e.1 = "image"
  project : ∀ e ∈ under table "project", Declares ({} : ProjectConfig).toTable e
  image : ∀ e ∈ under table "image", Declares ({} : ImageConfig).toTable e
  agentName : ∃ s, overlay (under table "project") ({} : ProjectConfig).toTable "agent_name" =
    some (.string s) ∧ Text.Inked s
  imageName : ∃ s, overlay (under table "image") ({} : ImageConfig).toTable "name" =
    some (.string s) ∧ Text.Inked s

/-- The document sets all that departs from the defaults, and nothing to another value. -/
structure Renders (c : Config) (table : Table) : Prop where
  known : ∀ e ∈ table, e.1 = "project" ∨ e.1 = "image"
  project : Table.Renders (under table "project") c.project.toTable ({} : ProjectConfig).toTable
  image : Table.Renders (under table "image") c.image.toTable ({} : ImageConfig).toTable

section Document

variable {document : String} (hparse : Toml.parse document = .ok table)
include hparse

theorem ofToml_eq_ok_iff : ofToml document = .ok c ↔
    ofTable table = .ok c ∧ Text.Inked c.project.agentName ∧ Text.Inked c.image.name := by
  have hread : (Toml.parse document).bind ofTable = ofTable table := by
    rw [hparse]
    rfl
  rw [ofToml, hread]
  cases htable : ofTable table with
  | error failure => simp
  | ok c' =>
    dsimp only
    rw [check_eq_ok_iff, Text.blank_eq_false_iff, Text.blank_eq_false_iff, Except.ok.injEq]
    constructor
    · rintro ⟨rfl, hnames⟩
      exact ⟨rfl, hnames⟩
    · rintro ⟨rfl, hnames⟩
      exact ⟨rfl, hnames⟩

variable (hproject : HasSection table "project") (himage : HasSection table "image")
include hproject himage

theorem ofTable_eq_ok_iff : ofTable table = .ok c ↔
    (∀ e ∈ table, e.1 = "project" ∨ e.1 = "image") ∧
      (under table "project").foldlM (setByKey ProjectConfig.fields) {} = .ok c.project ∧
      (under table "image").foldlM (setByKey ImageConfig.fields) {} = .ok c.image := by
  rw [ofTable, foldlM_fields_iff (Toml.distinct_of_parse hparse).once,
    Becomes.section_iff hproject, Becomes.section_iff himage]

theorem overlay_of_ofTable (h : ofTable table = .ok c) (key : String) :
    c.project.toTable.lookup key =
        overlay (under table "project") ({} : ProjectConfig).toTable key ∧
      c.image.toTable.lookup key = overlay (under table "image") ({} : ImageConfig).toTable key := by
  have hdistinct := Toml.distinct_of_parse hparse
  obtain ⟨-, hp, hi⟩ := (ofTable_eq_ok_iff hparse hproject himage).1 h
  exact ⟨ProjectConfig.allShow_fields.lookup_foldlM (hdistinct.under _) hp key,
    ImageConfig.allShow_fields.lookup_foldlM (hdistinct.under _) hi key⟩

theorem isOk_ofToml_iff : (∃ c, ofToml document = .ok c) ↔ Fits table := by
  constructor
  · rintro ⟨c, hc⟩
    obtain ⟨htable, hagent, hname⟩ := (ofToml_eq_ok_iff hparse).1 hc
    obtain ⟨hknown, hp, hi⟩ := (ofTable_eq_ok_iff hparse hproject himage).1 htable
    have hoverlay := overlay_of_ofTable hparse hproject himage htable
    exact {
      known := hknown
      project := ProjectConfig.allShow_fields.foldlM_isOk_iff.1 ⟨_, hp⟩
      image := ImageConfig.allShow_fields.foldlM_isOk_iff.1 ⟨_, hi⟩
      agentName := ⟨c.project.agentName, (hoverlay "agent_name").1.symm, hagent⟩
      imageName := ⟨c.image.name, (hoverlay "name").2.symm, hname⟩ }
  · intro h
    obtain ⟨p, hp⟩ := ProjectConfig.allShow_fields.foldlM_isOk_iff.2 h.project
    obtain ⟨i, hi⟩ := ImageConfig.allShow_fields.foldlM_isOk_iff.2 h.image
    have htable : ofTable table = .ok ⟨p, i⟩ :=
      (ofTable_eq_ok_iff hparse hproject himage).2 ⟨h.known, hp, hi⟩
    have hoverlay := overlay_of_ofTable hparse hproject himage htable
    obtain ⟨agent, hagent, hinked⟩ := h.agentName
    obtain ⟨name, hname, hinked'⟩ := h.imageName
    have hagent' : agent = p.agentName := by
      rw [← (hoverlay "agent_name").1] at hagent
      cases hagent
      rfl
    have hname' : name = i.name := by
      rw [← (hoverlay "name").2] at hname
      cases hname
      rfl
    exact ⟨⟨p, i⟩, (ofToml_eq_ok_iff hparse).2 ⟨htable, hagent' ▸ hinked, hname' ▸ hinked'⟩⟩

theorem ofToml_of_renders (h : Renders c table) (hagent : Text.Inked c.project.agentName)
    (hname : Text.Inked c.image.name) : ofToml document = .ok c := by
  have hdistinct := Toml.distinct_of_parse hparse
  refine (ofToml_eq_ok_iff hparse).2 ⟨?_, hagent, hname⟩
  exact (ofTable_eq_ok_iff hparse hproject himage).2 ⟨h.known,
    ProjectConfig.allShow_fields.foldlM_of_renders (hdistinct.under _) h.project,
    ImageConfig.allShow_fields.foldlM_of_renders (hdistinct.under _) h.image⟩

end Document

/-- A document whose sections are tables is accepted exactly if it has no other sections, sets only
what its sections declare, to values of the same types, and leaves no name blank. Whatever it sets
counts and the defaults do for the rest, whichever other keys there are and in whichever order; so a
configuration comes back from every document that renders it. -/
theorem configuration_overlay {document : String} (hparse : Toml.parse document = .ok table)
    (hproject : HasSection table "project") (himage : HasSection table "image") :
    ((∃ c, ofToml document = .ok c) ↔ Fits table) ∧
      (∀ c, ofToml document = .ok c → ∀ key,
        c.project.toTable.lookup key =
            overlay (under table "project") ({} : ProjectConfig).toTable key ∧
          c.image.toTable.lookup key =
            overlay (under table "image") ({} : ImageConfig).toTable key) ∧
      ∀ c, Renders c table → Text.Inked c.project.agentName → Text.Inked c.image.name →
        ofToml document = .ok c := by
  refine ⟨isOk_ofToml_iff hparse hproject himage, fun c hc ↦ ?_, fun c ↦ ?_⟩
  · exact overlay_of_ofTable hparse hproject himage ((ofToml_eq_ok_iff hparse).1 hc).1
  · exact ofToml_of_renders hparse hproject himage

set_option maxRecDepth 10000 in
theorem configuration_overlay_rehearsed :
    let document :=
      "image=\x7bname=\"\\u00e9\"\x7d\n[project]\nextra_clean_dirs=[\"\"]\nconfiguration='Release'"
    let table : Table := [("image", .table [("name", .string "é")]),
      ("project", .table [("extra_clean_dirs", .array [.string ""]),
        ("configuration", .string "Release")])]
    Toml.parse document = .ok table ∧ HasSection table "project" ∧ HasSection table "image" ∧
      ofToml document = .ok ⟨{ extraCleanDirs := [""] }, { name := "é" }⟩ := by
  intro document table
  have hparse : Toml.parse document = .ok table := by cbv
  have hproject : HasSection table "project" := by
    rintro v ⟨⟩
    exact ⟨_, rfl⟩
  have himage : HasSection table "image" := by
    rintro v ⟨⟩
    exact ⟨_, rfl⟩
  obtain ⟨-, -, hread⟩ := configuration_overlay hparse hproject himage
  have hrenders : Renders ⟨{ extraCleanDirs := [""] }, { name := "é" }⟩ table := by
    have hp : under table "project" = [("extra_clean_dirs", .array [.string ""]),
      ("configuration", .string "Release")] := rfl
    have hi : under table "image" = [("name", .string "é")] := rfl
    refine ⟨by simp [table], ⟨?_, ?_⟩, ⟨?_, ?_⟩⟩
    all_goals simp [hp, hi, ProjectConfig.toTable, ImageConfig.toTable]
  have hagent : Text.Inked "agent" := ⟨'a', by decide, by decide⟩
  have hname : Text.Inked "é" := ⟨'é', by decide, by decide⟩
  exact ⟨hparse, hproject, himage, hread _ hrenders hagent hname⟩

end Config

end ReleaseTrain
