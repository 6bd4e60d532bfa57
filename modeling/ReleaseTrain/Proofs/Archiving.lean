import Mathlib
import ReleaseTrain.Proofs.ArchiveWalk
import ReleaseTrain.Proofs.PlatformStages
import ReleaseTrain.Proofs.Interruption

namespace ReleaseTrain

open Text (Bytes)

open FileSystem Session

namespace FileSystem

variable {fs fs' fs'' : FileSystem} {path : Bytes} {l : Location}

structure Raised (fs fs' : FileSystem) : Prop where
  wellFormed : fs.WellFormed → fs'.WellFormed
  workingDirectory : fs'.workingDirectory = fs.workingDirectory
  get? : ∀ m, fs'.get? m = fs.get? m ∨ fs.get? m = none ∧ fs'.get? m = some .directory

instance : IsPreorder FileSystem Raised where
  refl _ := ⟨id, rfl, fun _ ↦ .inl rfl⟩
  trans _ _ _ h h' := by
    refine ⟨h'.wellFormed ∘ h.wellFormed, h'.workingDirectory.trans h.workingDirectory, fun m ↦ ?_⟩
    obtain hsame | ⟨hnone, hmade⟩ := h.get? m
    · rw [← hsame]
      exact h'.get? m
    · obtain hsame' | ⟨hnone', -⟩ := h'.get? m
      · exact .inr ⟨hnone, hsame'.trans hmade⟩
      · rw [hmade] at hnone'
        cases hnone'

theorem raised_makeDirectory (path : Bytes) (fs : FileSystem) :
    Raised fs (remaining (makeDirectory path fs)) := by
  rw [makeDirectory_eq]
  cases hr : fs.resolve (if withoutTrailing path = [] then path else withoutTrailing path) false with
  | error failure => exact refl_of Raised fs
  | ok target =>
    rcases target with ⟨l, node⟩ | ⟨d, name⟩
    · exact refl_of Raised fs
    · obtain ⟨hd, hnone⟩ := get?_of_walk_free (resolve_eq_ok.1 hr).2
      refine ⟨fun h ↦ h.set hd (.inl rfl), rfl, fun m ↦ ?_⟩
      by_cases hm : m = d ++ [name]
      · exact .inr ⟨hm ▸ hnone, hm ▸ get?_set_self _ (by simp)⟩
      · exact .inl (get?_set_of_ne _ hm)

theorem raised_ensureDirectory (path : Bytes) (fs : FileSystem) :
    Raised fs (remaining (ensureDirectory path fs)) := by
  have hraised := raised_makeDirectory path fs
  unfold ensureDirectory
  generalize makeDirectory path fs = made at hraised
  rcases made with ⟨u, fs'⟩ | ⟨e, fs'⟩
  · exact hraised
  · dsimp only
    split <;> exact hraised

theorem raised_makeTree (fromRoot : Bool) (up : List Name) (fs : FileSystem) :
    Raised fs (remaining (makeTree fromRoot up fs)) := by
  induction up generalizing fs with
  | nil => exact refl_of Raised fs
  | cons step up ih =>
    have hmade := raised_makeDirectory (joinNames fromRoot (step :: up).reverse) fs
    unfold makeTree
    dsimp only
    generalize makeDirectory (joinNames fromRoot (step :: up).reverse) fs = made at hmade
    rcases made with ⟨u, fs₁⟩ | ⟨e, fs₁⟩
    · exact hmade
    cases e
    case notFound =>
      have habove := trans_of Raised hmade (ih fs₁)
      dsimp only [remaining] at habove ⊢
      generalize makeTree fromRoot up fs₁ = above at habove
      rcases above with ⟨u, fs₂⟩ | ⟨e, fs₂⟩
      · exact trans_of Raised habove (raised_ensureDirectory _ fs₂)
      · exact habove
    all_goals
      dsimp only
      split <;> exact hmade

theorem raised_makeDirectories (path : Bytes) (fs : FileSystem) :
    Raised fs (remaining (makeDirectories path fs)) := by
  unfold makeDirectories
  split
  · exact refl_of Raised fs
  have hmade := raised_makeDirectory path fs
  generalize makeDirectory path fs = made at hmade
  rcases made with ⟨u, fs₁⟩ | ⟨e, fs₁⟩
  · exact hmade
  cases e
  case notFound =>
    have habove := trans_of Raised hmade
      (raised_makeTree (Route.ofBytes path).fromRoot (plainSteps path).reverse.tail fs₁)
    dsimp only [remaining] at habove ⊢
    generalize makeTree (Route.ofBytes path).fromRoot (plainSteps path).reverse.tail fs₁ = above
      at habove
    rcases above with ⟨u, fs₂⟩ | ⟨e, fs₂⟩
    · exact trans_of Raised habove (raised_ensureDirectory path fs₂)
    · exact habove
  all_goals
    dsimp only
    split <;> exact hmade

end FileSystem

namespace Session

variable {σ : Type} {w w' : World σ} {source target : Path} {root : Location}

theorem raised_makeParents (path : Path) : Evolves Raised (makeParents path : Session σ Unit) := by
  unfold makeParents
  split
  · exact .onFiles fun fs ↦ raised_makeDirectories _ fs
  · exact .pure ()

/-- The directory at `root` was archived, and the archive is neither this directory nor in it. -/
structure Archived (source target : Path) (root : Location) (w w' : World σ) : Prop where
  done : archive source target w = .ok () w'
  source : w.files.directoryAt? source.bytes = some root
  outside : ∀ t node, w'.files.resolve target.bytes true = .ok (.found t node) → ¬root <+: t

/-- What an archive is made of: the tree as it is when the directories above the archive are there.
-/
theorem Archived.entries (h : Archived source target root w w') (hfs : w.files.WellFormed) :
    w'.files.WellFormed ∧ Raised w.files (after (makeParents target) w).files ∧
      (∀ m, root <+: m →
        w'.files.get? m = (after (makeParents target) w).files.get? m) ∧
      (∃ t, (after (makeParents target) w).files.resolve target.bytes true = .ok t ∧
        ¬root <+: t.place) ∧
      FileSystem.content target.bytes w'.files =
        .ok (.archive (w'.files.archiveEntries root)) w'.files ∧
      ((w'.files.archiveEntries root).map ArchiveEntry.name).Nodup := by
  obtain ⟨root', made, emptied, entries, hroot, hparents, hempty, hentries, hwrite⟩ :=
    archive_eq_ok.1 h.done
  obtain rfl : root' = root := Option.some.inj (hroot.symm.trans h.source)
  have hraised := raised_makeParents target w
  rw [after_of_ok hparents] at hraised ⊢
  have hempty := (onFiles_ok hempty).1
  have hwrite := (onFiles_ok hwrite).1
  have hfs₁ := wellFormed_of_write (hraised.wellFormed hfs) hempty
  have hfs₂ := wellFormed_of_write hfs₁ hwrite
  obtain ⟨target₁, mode₁, hr₁, -, hset₁, hfound₁⟩ := write_place hempty
  obtain ⟨target₂, mode₂, hr₂, -, hset₂, hfound₂⟩ := write_place hwrite
  obtain rfl : Target.found target₁.place (.file (.archive []) mode₁) = target₂ :=
    Except.ok.inj (hfound₁.symm.trans hr₂)
  have hplace := h.outside _ _ hfound₂
  have hsame₂ {m : Location} (hm : root' <+: m) : w'.files.get? m = emptied.files.get? m := by
    rw [hset₂]
    exact get?_set_of_ne _ fun heq ↦ hplace (heq ▸ hm)
  have hsame₁ {m : Location} (hm : root' <+: m) : emptied.files.get? m = made.files.get? m := by
    rw [hset₁]
    exact get?_set_of_ne _ fun heq ↦ hplace (heq ▸ hm)
  have htree : emptied.files.archiveEntries root' = w'.files.archiveEntries root' :=
    (archiveEntries_congr hfs₁ hfs₂ fun rel _ ↦ hsame₂ (List.prefix_append root' rel)).symm
  rw [htree] at hentries
  obtain ⟨rfl, hnodup, -⟩ := distinctEntries_eq hentries
  exact ⟨hfs₂, hraised, fun m hm ↦ (hsame₂ hm).trans (hsame₁ hm), ⟨target₁, hr₁, hplace⟩,
    content_of_write hwrite, hnodup⟩

theorem grown_parents {l : Location} (hfs : w.files.WellFormed)
    (hn : Names w.files.workingDirectory target.bytes l) (hlinks : w.files.Direct l) :
    Grown l w.files (after (makeParents target) w).files := by
  by_cases hne : plainSteps target.bytes = []
  case neg => exact (grown_makeParents hfs hn hne hlinks).mono l.dropLast_prefix
  unfold makeParents
  cases hparent : target.parent? with
  | none => exact .refl l w.files
  | some parent =>
    obtain ⟨hsteps, habsolute⟩ := Path.plainSteps_parent hparent
    rw [hne, List.dropLast_nil] at hsteps
    have hn' : Names w.files.workingDirectory parent.bytes l := by
      refine ⟨by simp [hsteps], ?_⟩
      rw [← hn.eq, placeOf, placeOf, hne, hsteps, Path.fromRoot_bytes, Path.fromRoot_bytes,
        habsolute]
    dsimp only [Session.makeDirectories]
    rw [files_after_onFiles]
    exact grown_makeDirectories hfs hn' hlinks

theorem Archived.tree_eq (h : Archived source target root w w') (hfs : w.files.WellFormed)
    {l : Location} (hn : Names w.files.workingDirectory target.bytes l)
    (hlinks : w.files.Direct l) {m : Location} (hm : root <+: m) :
    w'.files.get? m = w.files.get? m := by
  obtain ⟨-, hraised, hsame, ⟨t, ht, houtside⟩, -⟩ := h.entries hfs
  have hgrown := grown_parents hfs hn hlinks
  rw [hsame m hm]
  refine (hgrown.get? m).resolve_right fun hmade ↦ houtside ?_
  have hpath : target.bytes ≠ [] := by
    intro hnil
    rw [hnil] at ht
    cases ht
  rw [← hraised.workingDirectory] at hn
  have hleads : Leads _ l (FileSystem.resolve _ target.bytes true) :=
    leads_resolve (hraised.wellFormed hfs) hn (hgrown.direct hlinks) hpath
  rw [ht] at hleads
  have hplace : t.place = l := by
    cases hleads with
    | found => rfl
    | free heq => exact heq.symm
  rw [hplace]
  exact hm.trans hmade.1

/-- The archive of a directory, when it is made, holds one entry for each directory and each regular
file below it and no other, in the order of the walk that comes to each directory before its
contents and to what is in one directory by the bytes of the names; no two have the same name. It
depends on nothing but the tree: not on how the files are kept or where, nor on what was in the
archive's place. Directories may be made above the archive; the tree is as it was if no link is on
the way there. What is no directory is refused, and nothing is touched. -/
theorem archive_account (hfs : w.files.WellFormed) :
    (w.files.directoryAt? source.bytes = none →
      archive source target w =
        .error (.executionFailed "zip companion bundle" s!"{source.text} is not a directory") w) ∧
    ∀ root w', Archived source target root w w' → w'.files.Portable root → ∃ entries,
      FileSystem.content target.bytes w'.files = .ok (.archive entries) w'.files ∧
      Listing w'.files root [] entries ∧
      (∀ e, e ∈ entries ↔ ∃ path, path ≠ [] ∧
        e ∈ ownEntry path (w'.files.get? (root ++ path.map Text.encode))) ∧
      (entries.map ArchiveEntry.name).Nodup ∧
      (∀ source' target' root' (v v' : World σ), v.files.WellFormed →
        Archived source' target' root' v v' →
        (∀ rel, rel ≠ [] → v'.files.get? (root' ++ rel) = w'.files.get? (root ++ rel)) →
          FileSystem.content target'.bytes v'.files = .ok (.archive entries) v'.files) ∧
      (∀ m, root <+: m → w'.files.get? m = w.files.get? m ∨
        w.files.get? m = none ∧ w'.files.get? m = some .directory) ∧
      ∀ l, Names w.files.workingDirectory target.bytes l → w.files.Direct l → ∀ m, root <+: m →
        w'.files.get? m = w.files.get? m := by
  constructor
  · intro hsource
    unfold archive
    refine (bind_of_ok (rfl : Session.files w = .ok w.files w)).trans ?_
    dsimp only
    rw [hsource]
    rfl
  intro root w' h hportable
  obtain ⟨hfs', hraised, hsame, -, hcontent, hnodup⟩ := h.entries hfs
  have hlisting := listing_archiveEntries hfs' hportable
  refine ⟨_, hcontent, hlisting, fun e ↦ ?_, hnodup, ?_, fun m hm ↦ ?_, fun l hn hlinks m hm ↦
    h.tree_eq hfs hn hlinks hm⟩
  · rw [archiveEntries_eq hfs' hportable]
    exact mem_entriesFrom hfs' hportable
  · intro source' target' root' v v' hv h' htree
    obtain ⟨hv', -, -, -, hcontent', -⟩ := h'.entries hv
    rw [← hlisting.unique (listing_archiveEntries hv' (hportable.of_same htree)) htree]
    exact hcontent'
  · rw [hsame m hm]
    exact hraised.get? m

end Session

namespace Rehearsal

/-- A bundle in which a directory, a file whose name goes on with a dot, and a link are beside one
another, kept in no order, and an old archive. -/
def stocked : FileSystem where
  entries := [([[99], [108]], .link [47]), ([[99], [97, 46]], .file (.bytes [2]) 0o100644),
    ([[115]], .directory), ([[99]], .directory), ([[99], [97], [120]], .file (.bytes [1]) 0o755),
    ([[115], [122]], .file (.archive [.directory "old/"]) 0o600), ([[99], [97]], .directory)]

def stockedEntries : List ArchiveEntry :=
  [.directory "a/", .file "a/x" 0o755 [1], .file "a." 0o644 [2]]

def emptiedStock : FileSystem := stocked.set [[115], [122]] (.file (.archive []) 0o600)

def archivedStock : FileSystem :=
  emptiedStock.set [[115], [122]] (.file (.archive stockedEntries) 0o600)

theorem archive_stocked : ∃ w' : World Unit,
    archive ⟨"/c"⟩ ⟨"/s/z"⟩ ⟨stocked, (), []⟩ = .ok () w' ∧ w'.files = archivedStock := by
  have hsource : (⟨"/c"⟩ : Path).bytes = joinNames true [[99]] := by decide
  have htarget : (⟨"/s/z"⟩ : Path).bytes = joinNames true [[115], [122]] := by decide
  have hparents : makeParents ⟨"/s/z"⟩ (⟨stocked, (), []⟩ : World Unit) =
      .ok () ⟨stocked, (), []⟩ := by
    have hparent : (⟨"/s/z"⟩ : Path).parent? = some ⟨"/s"⟩ := by decide
    have hbytes : (⟨"/s"⟩ : Path).bytes = joinNames true [[115]] := by decide
    unfold makeParents
    rw [hparent]
    refine onFiles_eq_ok.2 ⟨?_, rfl⟩
    rw [hbytes]
    cbv
  have hempty : FileSystem.write (joinNames true [[115], [122]]) (.archive []) stocked =
      .ok () emptiedStock := by
    cbv
  have hentries : distinctEntries [] (emptiedStock.archiveEntries [[99]]) =
      (stockedEntries, none) := by
    cbv
  have hwrite : FileSystem.write (joinNames true [[115], [122]]) (.archive stockedEntries)
      emptiedStock = .ok () archivedStock := by
    cbv
  rw [← htarget] at hempty hwrite
  refine ⟨_, archive_eq_ok.2 ⟨[[99]], _, _, stockedEntries, ?_, hparents, onFiles_done hempty,
    hentries, onFiles_done hwrite⟩, rfl⟩
  rw [hsource]
  cbv

theorem portable_stocked : archivedStock.Portable [[99]] := by
  intro l n _ hthere
  obtain ⟨node, hnode⟩ := Option.ne_none_iff_exists'.1 hthere
  have htexts : ∀ e ∈ archivedStock.entries,
      ∃ t ∈ ["a", "a.", "c", "l", "s", "x", "z"], e.1.getLast? = some (Text.encode t) := by
    decide
  obtain ⟨t, ht, hlast⟩ := htexts _ (mem_entries (by simp) hnode)
  rw [List.getLast?_concat] at hlast
  refine ⟨t, ?_, ?_, Option.some.inj hlast⟩
  all_goals
    simp only [List.mem_cons, List.not_mem_nil, or_false] at ht
  · rcases ht with rfl | rfl | rfl | rfl | rfl | rfl | rfl <;>
      exact ⟨by decide, by decide, by decide, by decide⟩
  · rcases ht with rfl | rfl | rfl | rfl | rfl | rfl | rfl <;> decide

end Rehearsal

namespace Session

open Rehearsal

theorem archive_account_rehearsed : ∃ w' : World Unit,
    archive ⟨"/c"⟩ ⟨"/s/z"⟩ ⟨stocked, (), []⟩ = .ok () w' ∧
      FileSystem.content (⟨"/s/z"⟩ : Path).bytes w'.files =
        .ok (.archive stockedEntries) w'.files ∧
      Listing w'.files [[99]] [] stockedEntries := by
  have hwellFormed : stocked.WellFormed := .of_entries (by decide) (by decide)
  obtain ⟨w', hdone, hfiles⟩ := archive_stocked
  have hsource : stocked.directoryAt? (⟨"/c"⟩ : Path).bytes = some [[99]] := by
    rw [show (⟨"/c"⟩ : Path).bytes = joinNames true [[99]] by decide]
    cbv
  have htarget : w'.files.resolve (⟨"/s/z"⟩ : Path).bytes true =
      .ok (.found [[115], [122]] (.file (.archive stockedEntries) 0o600)) := by
    rw [hfiles, show (⟨"/s/z"⟩ : Path).bytes = joinNames true [[115], [122]] by decide]
    cbv
  have harchived : Archived ⟨"/c"⟩ ⟨"/s/z"⟩ [[99]] (⟨stocked, (), []⟩ : World Unit) w' := by
    refine ⟨hdone, hsource, fun t node ht ↦ ?_⟩
    cases htarget.symm.trans ht
    decide
  have hportable : w'.files.Portable [[99]] := hfiles ▸ portable_stocked
  obtain ⟨entries, hcontent, hlisting, -⟩ :=
    (archive_account hwellFormed).2 [[99]] w' harchived hportable
  have hheld : FileSystem.content (⟨"/s/z"⟩ : Path).bytes w'.files =
      .ok (.archive stockedEntries) w'.files := by
    rw [content_eq, htarget]
  obtain rfl : entries = stockedEntries := by
    rw [hheld] at hcontent
    cases hcontent
    rfl
  exact ⟨w', hdone, hheld, hlisting⟩

end Session

end ReleaseTrain
