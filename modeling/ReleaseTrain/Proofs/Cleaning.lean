import ReleaseTrain.Proofs.CommitPoint

namespace ReleaseTrain

open Text (Bytes)

open FileSystem Session

namespace FileSystem

variable {fs fs' : FileSystem} {path : Bytes} {l m : Location}

/-- What may go when a directory is removed: the link in its place, or the directory with all that
is in it. -/
inductive Removable (fs : FileSystem) (path : Bytes) : Location → Prop
  | link {l : Location} {target : Bytes} : fs.resolve path false = .ok (.found l (.link target)) →
      Removable fs path l
  | directory {l m : Location} : fs.resolve path false = .ok (.found l .directory) → l <+: m →
      Removable fs path m

inductive Emptiable (fs : FileSystem) (path : Bytes) : Location → Prop
  | inside {l m : Location} : fs.resolve path true = .ok (.found l .directory) → l <+: m → m ≠ l →
      Emptiable fs path m

inductive Emptied (fs : FileSystem) (path : Bytes) : Prop
  | absent : Absent (fs.resolve path true) → Emptied fs path
  | empty {l : Location} : fs.resolve path true = .ok (.found l .directory) →
      (∀ m, l <+: m → m ≠ l → fs.get? m = none) → Emptied fs path

theorem Shrunk.resolve_found (h : Shrunk fs fs') {followLast : Bool} {node : Node}
    (hfound : fs'.resolve path followLast = .ok (.found l node)) :
    fs.resolve path followLast = .ok (.found l node) := by
  obtain hsame | habsent := h.resolve path followLast
  · exact hsame.symm.trans hfound
  · rw [hfound] at habsent
    cases habsent

theorem Shrunk.removable (h : Shrunk fs fs') (hm : Removable fs' path m) :
    Removable fs path m := by
  cases hm with
  | link hfound => exact .link (h.resolve_found hfound)
  | directory hfound hm => exact .directory (h.resolve_found hfound) hm

theorem Shrunk.emptiable (h : Shrunk fs fs') (hm : Emptiable fs' path m) :
    Emptiable fs path m := by
  obtain ⟨hfound, hm, hne⟩ := hm
  exact .inside (h.resolve_found hfound) hm hne

theorem Shrunk.emptied (h : Shrunk fs fs') (hempty : Emptied fs path) : Emptied fs' path := by
  cases hempty with
  | absent habsent => exact .absent (h.absent_of_absent habsent)
  | empty hfound hnone =>
    obtain hsame | habsent := h.resolve path true
    · exact .empty (hsame.trans hfound) fun m hm hne ↦ h.none (hnone m hm hne)
    · exact .absent habsent

theorem get?_removeBelow_outside {left : List Location} (hm : l <+: m → m = l) :
    (fs.removeBelow l left).get? m = fs.get? m := by
  rw [get?_removeBelow, if_neg]
  rintro ⟨hcleared, -⟩
  obtain ⟨hbeneath, hne⟩ := isBelow_eq_true.1 (isCleared_eq_true.1 hcleared).1
  exact hne (hm hbeneath).symm

theorem get?_removeAt_outside (hm : ¬l <+: m) :
    (remaining (removeAt l fs)).get? m = fs.get? m := by
  obtain hgone | ⟨left, hgone⟩ := remaining_removeAt fs l
  · rw [hgone, get?_removeTree_outside hm]
  · rw [hgone, get?_removeBelow_outside fun h ↦ absurd h hm]

theorem mem_listed {e : Location × Node} :
    e ∈ fs.listed l ↔ e ∈ fs.entries ∧ e.1 ≠ [] ∧ e.1.dropLast = l := by
  simp [listed]

theorem beneath_of_listed {e : Location × Node} (he : e ∈ fs.listed l) : l <+: e.1 ∧ e.1 ≠ l := by
  obtain ⟨-, hroot, rfl⟩ := mem_listed.1 he
  refine ⟨List.dropLast_prefix e.1, fun heq ↦ ?_⟩
  have hlength := congrArg List.length heq
  have hpos := List.length_pos_iff.2 hroot
  rw [List.length_dropLast] at hlength
  omega

theorem WellFormed.exists_listed (hfs : fs.WellFormed) (hm : l <+: m) (hne : m ≠ l)
    (hthere : fs.get? m ≠ none) : ∃ e ∈ fs.listed l, e.1 <+: m := by
  obtain ⟨k, rfl⟩ := hm
  cases k with
  | nil => exact absurd (List.append_nil l) hne
  | cons name k =>
    have hprefix : l ++ [name] <+: l ++ name :: k := by
      rw [List.append_cons l name k]
      exact List.prefix_append _ k
    obtain ⟨node, hnode⟩ : ∃ node, fs.get? (l ++ [name]) = some node :=
      Option.ne_none_iff_exists'.1 fun hnone ↦ hthere (hfs.none_of_prefix hprefix hnone)
    exact ⟨_, mem_listed.2 ⟨mem_entries (by simp) hnode, by simp, by simp⟩, hprefix⟩

theorem listed_eq_nil (h : ∀ m, l <+: m → m ≠ l → fs.get? m = none) : fs.listed l = [] := by
  refine List.eq_nil_iff_forall_not_mem.2 fun e he ↦ ?_
  obtain ⟨hbeneath, hne⟩ := beneath_of_listed he
  obtain ⟨hmem, hroot, -⟩ := mem_listed.1 he
  have hnone := h e.1 hbeneath hne
  unfold get? at hnone
  rw [if_neg hroot] at hnone
  have hdiffers := List.lookup_eq_none_iff.1 hnone e hmem
  simp at hdiffers

theorem WellFormed.none_below_link (hfs : fs.WellFormed) {target : Bytes}
    (hlink : fs.get? l = some (.link target)) (hm : l <+: m) (hne : m ≠ l) : fs.get? m = none := by
  by_contra hthere
  have hdirectory := hfs.directory_of_prefix hm hne.symm hthere
  rw [hlink] at hdirectory
  cases hdirectory

/-- The removal of a directory touches nothing but what is to be removed, whether or not it comes to
its end. -/
theorem removeDirectory_frame (hfs : fs.WellFormed) (hm : ¬Removable fs path m) :
    (remaining (removeDirectory path fs)).get? m = fs.get? m := by
  obtain hsame | ⟨l, node, hfound, hnode, hgone⟩ := removeDirectory_cases fs path
  · rw [hsame]
  by_cases hbeneath : l <+: m
  · have hnone : fs.get? m = none := by
      obtain rfl | ⟨target, rfl⟩ := hnode
      · exact absurd (.directory hfound hbeneath) hm
      · refine hfs.none_below_link (get?_of_walk_found (resolve_eq_ok.1 hfound).2) hbeneath ?_
        rintro rfl
        exact hm (.link hfound)
    rw [hnone]
    exact (shrunk_removeDirectory fs path).none hnone
  · obtain hgone | ⟨left, hgone⟩ := hgone
    · rw [hgone, get?_removeTree_outside hbeneath]
    · rw [hgone, get?_removeBelow_outside fun h ↦ absurd h hbeneath]

theorem absent_of_removeDirectory (h : ifAny (removeDirectory path) fs = .ok () fs') :
    Absent (fs'.resolve path false) := by
  rw [ifAny_eq_ok, removeDirectory_eq] at h
  cases hr : fs.resolve path false with
  | error failure =>
    rw [hr] at h
    obtain h | h := h <;> cases h
    rw [hr]
    exact .missing
  | ok target =>
    rw [hr] at h
    rcases target with ⟨l, content | _ | target⟩ | ⟨d, name⟩
    case free =>
      obtain h | h := h <;> cases h
      rw [hr]
      exact .free d name
    case found.file => simp at h
    case found.link =>
      obtain rfl := removeAt_ok (h.resolve_right removeAt_ne_notFound)
      refine (Shrunk.removeTree fs l).absent hr (get?_removeTree_beneath ?_ (List.prefix_refl l))
      rintro rfl
      cases get?_of_walk_found (resolve_eq_ok.1 hr).2
    case found.directory =>
      dsimp only at h
      split at h
      · simp at h
      split at h
      · simp at h
      split at h
      · simp at h
      split at h
      · -- Emptied by a name that ends with `..`, the directory stays, but that name may be gone.
        cases hagain : (fs.removeBelow l).resolve path false with
        | error failure =>
          rw [hagain] at h
          obtain h | h := h <;> cases h
          rw [hagain]
          exact .missing
        | ok again =>
          rw [hagain] at h
          rcases again with ⟨l', node⟩ | ⟨d, name⟩
          · simp at h
          · obtain h | h := h <;> cases h
            rw [hagain]
            exact .free d name
      split at h
      · simp at h
      next hroot =>
      obtain h | h := h <;> cases h
      exact (Shrunk.removeTree fs l).absent hr (get?_removeTree_beneath hroot (List.prefix_refl l))

theorem removeDirectory_of_absent (h : Absent (fs.resolve path false)) :
    ifAny (removeDirectory path) fs = .ok () fs := by
  rw [ifAny_eq_ok, removeDirectory_eq]
  generalize fs.resolve path false = target at h
  cases h <;> exact .inr rfl

end FileSystem

namespace Settings

variable {s : Settings} {fs fs' : FileSystem} {m : Location}

def removed (s : Settings) : List Path := s.outputRoot :: s.companionRoot :: s.extraCleanDirs

/-- What a cleaning may take away. -/
inductive Cleanable (s : Settings) (fs : FileSystem) (m : Location) : Prop
  | removed {dir : Path} : dir ∈ s.removed → Removable fs dir.bytes m → Cleanable s fs m
  | emptied : Emptiable fs s.stagingRoot.bytes m → Cleanable s fs m

structure Cleaned (s : Settings) (fs : FileSystem) : Prop where
  removed : ∀ dir ∈ s.removed, Absent (fs.resolve dir.bytes false)
  emptied : Emptied fs s.stagingRoot.bytes

/-- Some of what a cleaning may take away is gone, and nothing else happened. -/
structure Tidied (s : Settings) (fs fs' : FileSystem) : Prop where
  shrunk : Shrunk fs fs'
  frame : fs.WellFormed → ∀ m, ¬s.Cleanable fs m → fs'.get? m = fs.get? m

theorem Cleanable.of_shrunk (h : Shrunk fs fs') (hm : s.Cleanable fs' m) : s.Cleanable fs m := by
  cases hm with
  | removed hdir hm => exact .removed hdir (h.removable hm)
  | emptied hm => exact .emptied (h.emptiable hm)

instance : IsPreorder FileSystem s.Tidied where
  refl fs := ⟨.refl fs, fun _ _ _ ↦ rfl⟩
  trans _ _ _ h h' := by
    refine ⟨h.shrunk.trans h'.shrunk, fun hfs m hm ↦ ?_⟩
    have hrest := h'.frame (h.shrunk.wellFormed hfs) m fun hm' ↦ hm (hm'.of_shrunk h.shrunk)
    exact hrest.trans (h.frame hfs m hm)

end Settings

namespace Packaging

open Settings

variable {σ : Type} {s : Settings} {w w' : World σ} {dirs : List Path}

theorem removeEach_frame {path : Path} {entries : List (Location × Node)} {m : Location}
    (hm : ∀ e ∈ entries, ¬e.1 <+: m) :
    (after (removeEach path entries) w).files.get? m = w.files.get? m := by
  induction entries generalizing w with
  | nil => rfl
  | cons e entries ih =>
    obtain ⟨hfirst, hrest⟩ := List.forall_mem_cons.1 hm
    have hframe : (after (removeEntry path e.1 e.2) w).files.get? m = w.files.get? m := by
      unfold removeEntry
      rw [files_after_onFiles, get?_removeAt_outside hfirst]
    change (after (removeEntry path e.1 e.2 >>= fun _ ↦ removeEach path entries) w).files.get? m = _
    cases hremove : removeEntry path e.1 e.2 w with
    | ok u w₁ =>
      rw [after_of_ok hremove] at hframe
      rw [after_bind_of_ok hremove, ih hrest, hframe]
    | error e w₁ =>
      rw [after_of_error hremove] at hframe
      rw [after_of_error (bind_of_error hremove), hframe]

theorem gone_of_removeEach {path : Path} {entries : List (Location × Node)}
    (h : removeEach path entries w = .ok () w') :
    ∀ e ∈ entries, e.1 ≠ [] → ∀ m, e.1 <+: m → w'.files.get? m = none := by
  induction entries generalizing w with
  | nil => nofun
  | cons e entries ih =>
    obtain ⟨_, w₁, hremove, hrest⟩ := bind_eq_ok.1 h
    refine List.forall_mem_cons.2 ⟨fun hroot m hm ↦ ?_, ih hrest⟩
    refine ((Shrinks.removeEach path entries).of_ok hrest).1.none ?_
    rw [removeAt_ok (onFiles_ok hremove).1]
    exact get?_removeTree_beneath hroot hm

theorem emptyDirectory_cases (path : Path) (w : World σ) :
    (Absent (w.files.resolve path.bytes true) ∧ Session.emptyDirectory path w = .ok () w) ∨
    (∃ e, Session.emptyDirectory path w = .error e w) ∨
    ∃ l, w.files.resolve path.bytes true = .ok (.found l .directory) ∧
      Session.emptyDirectory path w = removeEach path (w.files.listed l) w := by
  have hfiles (f : FileSystem → Session σ Unit) : (files >>= f) w = f w.files w := rfl
  unfold Session.emptyDirectory
  rw [hfiles, listDirectory_eq]
  rcases w.files.resolve path.bytes true with failure | ⟨l, content | _ | target⟩ | ⟨d, name⟩
  · by_cases hmissing : failure = .notFound
    · subst hmissing
      exact .inl ⟨.missing, rfl⟩
    · refine .inr (.inl ⟨.io failure, ?_⟩)
      cases failure
      case notFound => exact absurd rfl hmissing
      all_goals rfl
  · exact .inr (.inl ⟨_, rfl⟩)
  · exact .inr (.inr ⟨l, rfl, rfl⟩)
  · exact .inr (.inl ⟨_, rfl⟩)
  · exact .inl ⟨.free d name, rfl⟩

theorem emptyDirectory_frame {path : Path} {m : Location} (hm : ¬Emptiable w.files path.bytes m) :
    (after (Session.emptyDirectory path) w).files.get? m = w.files.get? m := by
  obtain ⟨-, hdone⟩ | ⟨e, hfailed⟩ | ⟨l, hfound, hsame⟩ := emptyDirectory_cases path w
  · rw [after_of_ok hdone]
  · rw [after_of_error hfailed]
  · have hafter : after (Session.emptyDirectory path) w =
        after (removeEach path (w.files.listed l)) w := by
      unfold after
      rw [hsame]
    rw [hafter]
    refine removeEach_frame fun e he hway ↦ ?_
    obtain ⟨hbeneath, hne⟩ := beneath_of_listed he
    refine hm (.inside hfound (hbeneath.trans hway) ?_)
    rintro rfl
    exact hne (hway.eq_of_length_le hbeneath.length_le)

theorem emptied_of_emptyDirectory {path : Path} (hfs : w.files.WellFormed)
    (h : Session.emptyDirectory path w = .ok () w') : Emptied w'.files path.bytes := by
  obtain ⟨habsent, hdone⟩ | ⟨e, hfailed⟩ | ⟨l, hfound, hsame⟩ := emptyDirectory_cases path w
  · rw [hdone] at h
    cases h
    exact .absent habsent
  · rw [hfailed] at h
    cases h
  · have hshrunk := ((Shrinks.emptyDirectory path).of_ok h).1
    rw [hsame] at h
    obtain hstill | habsent := hshrunk.resolve path.bytes true
    case inr => exact .absent habsent
    refine .empty (hstill.trans hfound) fun m hm hne ↦ ?_
    by_contra hthere
    obtain ⟨e, he, hprefix⟩ := hfs.exists_listed hm hne fun hnone ↦ hthere (hshrunk.none hnone)
    exact hthere (gone_of_removeEach h e he (mem_listed.1 he).2.1 m hprefix)

theorem tidied_removal {dir : Path} (hdir : dir ∈ s.removed) :
    Evolves s.Tidied (Session.removeDirectory dir : Session σ Unit) := by
  refine .onFiles fun fs ↦ ?_
  rw [remaining_ifAny]
  exact ⟨shrunk_removeDirectory fs _, fun hfs m hm ↦
    removeDirectory_frame hfs fun hm' ↦ hm (.removed hdir hm')⟩

theorem tidied_clearSlots : Evolves s.Tidied (clearSlots s.stagingRoot : Session σ Unit) := by
  intro w
  exact ⟨(Shrinks.emptyDirectory _ w).1, fun _ m hm ↦
    emptyDirectory_frame fun hm' ↦ hm (.emptied hm')⟩

theorem tidied_cleanExtra (hdirs : ∀ dir ∈ dirs, dir ∈ s.removed) :
    Evolves s.Tidied (cleanExtra dirs : Session σ Unit) := by
  induction dirs with
  | nil => exact .pure ()
  | cons dir dirs ih =>
    exact (Evolves.report _).bind fun _ ↦ (tidied_removal (hdirs dir List.mem_cons_self)).bind
      fun _ ↦ ih fun other hother ↦ hdirs other (List.mem_cons_of_mem dir hother)

/-- However far a cleaning comes, it keeps to what it may take away. -/
theorem tidied_clean (s : Settings) : Evolves s.Tidied (clean s : Session σ Unit) :=
  (Evolves.report _).bind fun _ ↦ (tidied_removal (by simp [removed])).bind fun _ ↦
    tidied_clearSlots.bind fun _ ↦ (tidied_removal (by simp [removed])).bind fun _ ↦
      (tidied_cleanExtra fun dir hdir ↦ by simp [removed, hdir]).bind fun _ ↦ .report _

theorem absent_of_removal {dir : Path} (h : Session.removeDirectory dir w = .ok () w') :
    Absent (w'.files.resolve dir.bytes false) := absent_of_removeDirectory (onFiles_ok h).1

theorem absent_of_cleanExtra (h : cleanExtra dirs w = .ok () w') :
    ∀ dir ∈ dirs, Absent (w'.files.resolve dir.bytes false) := by
  induction dirs generalizing w with
  | nil => nofun
  | cons dir dirs ih =>
    obtain ⟨_, w₁, -, h⟩ := bind_eq_ok.1 h
    obtain ⟨_, w₂, hremoved, hrest⟩ := bind_eq_ok.1 h
    refine List.forall_mem_cons.2 ⟨?_, ih hrest⟩
    exact ((shrinks_cleanExtra dirs).of_ok hrest).1.absent_of_absent (absent_of_removal hremoved)

/-- A cleaning that ends well leaves nothing to clean: what it removed or emptied stays so while it
goes on. -/
theorem cleaned_of_clean (hfs : w.files.WellFormed) (h : clean s w = .ok () w') :
    s.Cleaned w'.files := by
  obtain ⟨_, w₁, hstart, h⟩ := bind_eq_ok.1 h
  obtain ⟨_, w₂, houtput, h⟩ := bind_eq_ok.1 h
  obtain ⟨_, w₃, hslots, h⟩ := bind_eq_ok.1 h
  obtain ⟨_, w₄, hcompanion, h⟩ := bind_eq_ok.1 h
  obtain ⟨_, w₅, hextra, hreport⟩ := bind_eq_ok.1 h
  have hshrunk₂ := ((Shrinks.removeDirectory s.outputRoot).of_ok houtput).1
  have hshrunk₃ := ((Shrinks.emptyDirectory s.stagingRoot).of_ok hslots).1
  have hshrunk₄ := ((Shrinks.removeDirectory s.companionRoot).of_ok hcompanion).1
  have hshrunk₅ := ((shrinks_cleanExtra s.extraCleanDirs).of_ok hextra).1
  rw [← (report_eq_ok hstart).1] at hfs
  rw [(report_eq_ok hreport).1]
  constructor
  · refine List.forall_mem_cons.2 ⟨?_, List.forall_mem_cons.2 ⟨?_, absent_of_cleanExtra hextra⟩⟩
    · exact (hshrunk₃.trans (hshrunk₄.trans hshrunk₅)).absent_of_absent (absent_of_removal houtput)
    · exact hshrunk₅.absent_of_absent (absent_of_removal hcompanion)
  · exact (hshrunk₄.trans hshrunk₅).emptied
      (emptied_of_emptyDirectory (hshrunk₂.wellFormed hfs) hslots)

def Idle (fs : FileSystem) (m : Session σ Unit) : Prop :=
  ∀ w, w.files = fs → ∃ w', m w = .ok () w' ∧ w'.files = fs

theorem Idle.bind {fs : FileSystem} {m m' : Session σ Unit} (h : Idle fs m) (h' : Idle fs m') :
    Idle fs (m >>= fun _ ↦ m') := by
  intro w hw
  obtain ⟨w₁, hfirst, hw₁⟩ := h w hw
  obtain ⟨w₂, hsecond, hw₂⟩ := h' w₁ hw₁
  exact ⟨w₂, bind_eq_ok.2 ⟨(), w₁, hfirst, hsecond⟩, hw₂⟩

section Idle

variable {fs : FileSystem}

theorem idle_report (r : Report) : Idle fs (report r : Session σ Unit) := fun _ hw ↦ ⟨_, rfl, hw⟩

theorem idle_onFiles {cause : FileSystem.Failure → ReleaseError} {action : FileSystem.Action Unit}
    (h : action fs = .ok () fs) : Idle fs (onFiles cause action : Session σ Unit) := by
  rintro w rfl
  exact ⟨_, onFiles_done h, rfl⟩

theorem idle_removal {dir : Path} (h : Absent (fs.resolve dir.bytes false)) :
    Idle fs (Session.removeDirectory dir : Session σ Unit) :=
  idle_onFiles (removeDirectory_of_absent h)

theorem idle_emptyDirectory {path : Path} (h : Emptied fs path.bytes) :
    Idle fs (Session.emptyDirectory path : Session σ Unit) := by
  rintro w rfl
  refine ⟨w, bind_eq_ok.2 ⟨w.files, w, rfl, ?_⟩, rfl⟩
  rw [listDirectory_eq]
  cases h with
  | absent habsent =>
    generalize w.files.resolve path.bytes true = target at habsent
    cases habsent <;> rfl
  | empty hfound hnone =>
    rw [hfound]
    dsimp only
    rw [listed_eq_nil hnone]
    rfl

theorem idle_cleanExtra (h : ∀ dir ∈ dirs, Absent (fs.resolve dir.bytes false)) :
    Idle fs (cleanExtra dirs : Session σ Unit) := by
  induction dirs with
  | nil => exact fun w hw ↦ ⟨w, rfl, hw⟩
  | cons dir dirs ih =>
    obtain ⟨hdir, hdirs⟩ := List.forall_mem_cons.1 h
    exact (idle_report _).bind ((idle_removal hdir).bind (ih hdirs))

theorem idle_clean (h : s.Cleaned fs) : Idle fs (clean s : Session σ Unit) := by
  obtain ⟨houtput, hothers⟩ := List.forall_mem_cons.1 h.removed
  obtain ⟨hcompanion, hextra⟩ := List.forall_mem_cons.1 hothers
  have hslots : Idle fs (clearSlots s.stagingRoot : Session σ Unit) :=
    idle_emptyDirectory h.emptied
  exact (idle_report _).bind ((idle_removal houtput).bind (hslots.bind
    ((idle_removal hcompanion).bind ((idle_cleanExtra hextra).bind (idle_report _)))))

end Idle

/-- Wherever a cleaning ends, all that is gone is what stood in the place of the output root, of the
companion root or of an extra directory, a link there without what it leads to, what was inside
them, and what was inside the staging root. When it ends well, the paths of the first lead to
nothing, not even to a link, and the staging root's to an empty directory or to nothing; and the
next cleaning ends well and changes nothing. The directories may be the same, lie in one another or
behind links. -/
theorem clean_account (hfs : w.files.WellFormed) :
    (∀ m, (after (clean s) w).files.get? m = w.files.get? m ∨
      s.Cleanable w.files m ∧ (after (clean s) w).files.get? m = none) ∧
    ∀ w', clean s w = .ok () w' →
      (∀ dir ∈ s.outputRoot :: s.companionRoot :: s.extraCleanDirs, ∀ followLast,
        Absent (w'.files.resolve dir.bytes followLast)) ∧
      (Absent (w'.files.resolve s.stagingRoot.bytes true) ∨ ∃ l,
        w'.files.resolve s.stagingRoot.bytes true = .ok (.found l .directory) ∧
          ∀ m, l <+: m → m ≠ l → w'.files.get? m = none) ∧
      ∃ again, clean s w' = .ok () again ∧ again.files = w'.files := by
  constructor
  · intro m
    have htidied := tidied_clean s w
    by_cases hm : s.Cleanable w.files m
    · exact (htidied.shrunk.get? m).imp_right fun hgone ↦ ⟨hm, hgone⟩
    · exact .inl (htidied.frame hfs m hm)
  · intro w' h
    have hcleaned := cleaned_of_clean hfs h
    refine ⟨fun dir hdir followLast ↦ (hcleaned.removed dir hdir).followed followLast, ?_,
      idle_clean hcleaned w' rfl⟩
    cases hcleaned.emptied with
    | absent habsent => exact .inl habsent
    | empty hfound hnone => exact .inr ⟨_, hfound, hnone⟩

end Packaging

namespace Rehearsal

open Packaging

/-- A disk whose output root is a link, with another link in the staging root. -/
def linked : FileSystem where
  entries := [([[116], [107]], .file (.bytes [0]) 0o644), ([[116]], .directory),
    ([[115], [97]], .link [47, 116]), ([[115]], .directory), ([[111]], .link [47, 116])]

theorem clean_linked {w : World Unit} (hw : w.files = linked) :
    ∃ w', clean settings w = .ok () w' := by
  have houtput : ifAny (FileSystem.removeDirectory (joinNames true [[111]])) w.files =
      .ok () (linked.removeTree [[111]]) := by
    rw [hw]
    cbv
  have hstaging : (linked.removeTree [[111]]).listDirectory (joinNames true [[115]]) =
      .ok [([[115], [97]], .link [47, 116])] := by
    cbv
  have hcompanion : ifAny (FileSystem.removeDirectory (joinNames true [[99]]))
      ((linked.removeTree [[111]]).removeTree [[115], [97]]) =
        .ok () ((linked.removeTree [[111]]).removeTree [[115], [97]]) := by
    cbv
  obtain ⟨w', hclean, -⟩ := clean_of_removals houtput rfl hstaging rfl hcompanion
  exact ⟨w', hclean⟩

theorem resolve_linked :
    linked.resolve settings.outputRoot.bytes false = .ok (.found [[111]] (.link [47, 116])) ∧
      linked.resolve settings.companionRoot.bytes false = .ok (.free [] [99]) ∧
      linked.resolve settings.stagingRoot.bytes true = .ok (.found [[115]] .directory) := by
  rw [bytes_outputRoot, bytes_companionRoot, bytes_stagingRoot]
  exact ⟨by cbv, by cbv, by cbv⟩

theorem not_cleanable_linked : ¬settings.Cleanable linked [[116], [107]] := by
  obtain ⟨houtput, hcompanion, hstaging⟩ := resolve_linked
  rintro (⟨hdir, hfound | ⟨hfound, hm⟩⟩ | ⟨hfound, hm, -⟩)
  · obtain rfl | rfl := List.mem_pair.1 hdir
    · cases houtput.symm.trans hfound
    · cases hcompanion.symm.trans hfound
  · obtain rfl | rfl := List.mem_pair.1 hdir
    · cases houtput.symm.trans hfound
    · cases hcompanion.symm.trans hfound
  · cases hstaging.symm.trans hfound
    exact absurd hm (by decide)

end Rehearsal

namespace Packaging

open Rehearsal

theorem clean_account_rehearsed :
    let w : World Unit := ⟨linked, (), []⟩
    ∃ w' again, clean settings w = .ok () w' ∧
      w'.files.get? [[116], [107]] = some (.file (.bytes [0]) 0o644) ∧
      Absent (w'.files.resolve settings.outputRoot.bytes false) ∧
      clean settings w' = .ok () again ∧ again.files = w'.files := by
  intro w
  have hwellFormed : linked.WellFormed := .of_entries (by decide) (by decide)
  obtain ⟨w', hclean⟩ := clean_linked (w := w) rfl
  obtain ⟨hframe, hdone⟩ := clean_account (s := settings) (w := w) hwellFormed
  obtain ⟨habsent, -, again, hagain, hsame⟩ := hdone w' hclean
  rw [after_of_ok hclean] at hframe
  refine ⟨w', again, hclean, ?_, habsent _ List.mem_cons_self false, hagain, hsame⟩
  exact (hframe [[116], [107]]).resolve_right fun hgone ↦ not_cleanable_linked hgone.1

end Packaging

end ReleaseTrain
