import ReleaseTrain.Proofs.Places

namespace ReleaseTrain

open Text (Bytes)

namespace FileSystem

variable {fs fs' fs'' : FileSystem} {l m : Location} {path : Bytes}

theorem WellFormed.removeTree_eq_self (h : fs.WellFormed) (hl : l ≠ []) (hnone : fs.get? l = none) :
    fs.removeTree l = fs := by
  have hentries : fs.entries.filter (fun e ↦ !l.isPrefixOf e.1) = fs.entries := by
    refine List.filter_eq_self.2 fun e he ↦ ?_
    rw [Bool.not_eq_true', Bool.eq_false_iff]
    intro hprefix
    rw [List.isPrefixOf_iff_prefix] at hprefix
    have hroot : e.1 ≠ [] := by
      intro hnil
      rw [hnil, List.prefix_nil] at hprefix
      exact hl hprefix
    have hget := h.none_of_prefix hprefix hnone
    unfold get? at hget
    rw [if_neg hroot] at hget
    have hmem := List.lookup_eq_none_iff.1 hget e he
    simp at hmem
  unfold FileSystem.removeTree
  rw [hentries]

/-- The files that an operation leaves, whether or not it succeeded. -/
def remaining {α : Type} : EStateM.Result Failure FileSystem α → FileSystem
  | .ok _ fs | .error _ fs => fs

theorem remaining_ifAny (action : Action Unit) :
    remaining (ifAny action fs) = remaining (action fs) := by
  unfold ifAny
  cases action fs with
  | ok u files => rfl
  | error e files => cases e <;> rfl

theorem ifAny_eq_ok {action : Action Unit} :
    ifAny action fs = .ok () fs' ↔ action fs = .ok () fs' ∨ action fs = .error .notFound fs' := by
  unfold ifAny
  split
  · next files h =>
    rw [h]
    simp
  · next hne =>
    constructor
    · exact .inl
    · exact fun h ↦ h.resolve_right fun h ↦ hne _ h

theorem removeAt_ok (h : removeAt l fs = .ok () fs') : fs' = fs.removeTree l := by
  unfold removeAt at h
  split at h
  · cases h
    rfl
  · cases h

theorem removeAt_ne_notFound : removeAt l fs ≠ .error .notFound fs' := by
  unfold removeAt
  split <;> simp

theorem remaining_removeAt (fs : FileSystem) (l : Location) :
    remaining (removeAt l fs) = fs.removeTree l ∨
      ∃ left, remaining (removeAt l fs) = fs.removeBelow l left := by
  unfold removeAt
  split
  · exact .inl rfl
  · exact .inr ⟨_, rfl⟩

theorem write_error {content : Content} {e : Failure} (h : write path content fs = .error e fs') :
    fs' = fs := by
  rw [write_eq] at h
  generalize fs.resolve path true = target at h
  rcases target with failure | ⟨l, node⟩ | ⟨d, name⟩
  · cases h
    rfl
  · cases node <;> cases h <;> rfl
  · cases h

theorem read_eq (path : Bytes) : read path fs =
    match content path fs with
    | .ok held fs => .ok held.toBytes fs
    | .error failure fs => .error failure fs := by
  change EStateM.bind (content path) _ fs = _
  unfold EStateM.bind
  cases content path fs <;> rfl

theorem remaining_read (path : Bytes) : remaining (read path fs) = fs := by
  rw [read_eq, content_eq]
  generalize fs.resolve path true = target
  rcases target with failure | ⟨l, node⟩ | ⟨d, name⟩
  · rfl
  · cases node <;> rfl
  · rfl

theorem wellFormed_of_write (hfs : fs.WellFormed) {content : Content}
    (h : write path content fs = .ok () fs') : fs'.WellFormed := by
  obtain ⟨target, mode, hr, hwas, rfl, -⟩ := write_place h
  have hwalk := (resolve_eq_ok.1 hr).2
  cases target with
  | free d name =>
    obtain ⟨hd, hnone⟩ := get?_of_walk_free hwalk
    exact hfs.set hd (.inr (by simp [hnone]))
  | found l node =>
    have hget := get?_of_walk_found hwalk
    obtain ⟨content', mode', rfl⟩ := hwas node hget
    obtain ⟨d, name, rfl⟩ : ∃ d name, l = d ++ [name] := by
      rcases List.eq_nil_or_concat l with rfl | ⟨d, name, hd⟩
      · cases hget
      · exact ⟨d, name, hd.trans List.concat_eq_append⟩
    exact hfs.set (hfs.above d name (by simp [hget])) (.inr (by simp [hget]))

section Plain

variable (hfs : fs.WellFormed) (hn : Names fs.workingDirectory path l) (hlinks : fs.Direct l)
  (hne : path ≠ [])
include hfs hn hlinks hne

theorem removeFile_plain (hl : l ≠ []) (h : ifAny (removeFile path) fs = .ok () fs') :
    fs' = fs.removeTree l := by
  have hleads : Leads fs l (fs.resolve path false) := leads_resolve hfs hn hlinks hne
  rw [ifAny_eq_ok, removeFile_eq] at h
  generalize fs.resolve path false = target at h hleads
  cases hleads with
  | @found node hget =>
    cases node with
    | directory => simp at h
    | file content mode | link target => exact removeAt_ok (h.resolve_right removeAt_ne_notFound)
  | free _ _ hnone | missing hnone =>
    obtain h | h := h <;> cases h
    exact (hfs.removeTree_eq_self hl hnone).symm
  | refused he =>
    obtain h | h := h <;> cases h
    exact absurd rfl he

theorem removeDirectory_plain (hl : l ≠ []) (hlast : lastStep? path ≠ some stepUp)
    (h : ifAny (removeDirectory path) fs = .ok () fs') : fs' = fs.removeTree l := by
  have hleads : Leads fs l (fs.resolve path false) := leads_resolve hfs hn hlinks hne
  rw [ifAny_eq_ok, removeDirectory_eq] at h
  generalize fs.resolve path false = target at h hleads
  cases hleads with
  | @found node hget =>
    cases node with
    | file content mode => simp at h
    | link target => exact absurd hget (hlinks l (List.prefix_refl l) target)
    | directory =>
      dsimp only at h
      split at h
      · simp at h
      split at h
      · simp at h
      split at h
      · simp at h
      obtain h | h := h <;> cases h
      rfl
  | free _ _ hnone | missing hnone =>
    obtain h | h := h <;> cases h
    exact (hfs.removeTree_eq_self hl hnone).symm
  | refused he =>
    obtain h | h := h <;> cases h
    exact absurd rfl he

theorem write_plain {content : Content} (h : write path content fs = .ok () fs') :
    l ≠ [] ∧ (∃ mode, fs' = fs.set l (.file content mode)) ∧ fs'.WellFormed := by
  have hleads : Leads fs l (fs.resolve path true) := leads_resolve hfs hn hlinks hne
  have hfs' := wellFormed_of_write hfs h
  rw [write_eq] at h
  generalize fs.resolve path true = target at h hleads
  cases hleads with
  | @found node hget =>
    cases node with
    | directory | link target => cases h
    | file old mode =>
      cases h
      refine ⟨?_, ⟨mode, rfl⟩, hfs'⟩
      rintro rfl
      cases hget
  | free hl hd hnone =>
    cases h
    subst hl
    exact ⟨by simp, ⟨defaultMode, rfl⟩, hfs'⟩
  | missing | refused => cases h

theorem directoryAt?_plain {root : Location} (h : fs.directoryAt? path = some root) :
    root = l ∧ fs.get? l = some .directory := by
  have hleads : Leads fs l (fs.resolve path true) := leads_resolve hfs hn hlinks hne
  unfold directoryAt? at h
  generalize fs.resolve path true = target at h hleads
  cases hleads with
  | @found node hget =>
    cases node with
    | directory =>
      cases h
      exact ⟨rfl, hget⟩
    | file content mode | link target => cases h
  | free | missing | refused => cases h

theorem content_plain {content : Content} (h : FileSystem.content path fs = .ok content fs') :
    fs' = fs ∧ ∃ mode, fs.get? l = some (.file content mode) := by
  have hleads : Leads fs l (fs.resolve path true) := leads_resolve hfs hn hlinks hne
  rw [content_eq] at h
  generalize fs.resolve path true = target at h hleads
  cases hleads with
  | @found node hget =>
    cases node with
    | directory | link target => cases h
    | file content mode =>
      cases h
      exact ⟨rfl, mode, hget⟩
  | free | missing | refused => cases h

theorem nodeAt?_plain {followLast : Bool} (h : fs.get? l = none) :
    fs.nodeAt? path followLast = none := by
  have hleads : Leads fs l (fs.resolve path followLast) := leads_resolve hfs hn hlinks hne
  unfold nodeAt?
  generalize fs.resolve path followLast = target at hleads
  cases hleads with
  | found hget =>
    rw [h] at hget
    cases hget
  | free | missing | refused => rfl

end Plain

/-- A place is as it was, or it is on the way to another one and was made a directory. -/
def Paved (l : Location) (fs fs' : FileSystem) (m : Location) : Prop :=
  fs'.get? m = fs.get? m ∨ m <+: l ∧ fs.get? m = none ∧ fs'.get? m = some .directory

namespace Paved

theorem trans (h : Paved l fs fs' m) (h' : Paved l fs' fs'' m) : Paved l fs fs'' m := by
  obtain hsame | ⟨hm, hnone, hmade⟩ := h
  · obtain hsame' | ⟨hm, hnone, hmade⟩ := h'
    · exact .inl (hsame'.trans hsame)
    · exact .inr ⟨hm, hsame ▸ hnone, hmade⟩
  · obtain hsame' | ⟨-, hnone', -⟩ := h'
    · exact .inr ⟨hm, hnone, hsame'.trans hmade⟩
    · rw [hmade] at hnone'
      cases hnone'

theorem stays (h : Paved l fs fs' m) {node : Node} (hnode : fs.get? m = some node) :
    fs'.get? m = some node := by
  obtain hsame | ⟨-, hnone, -⟩ := h
  · exact hsame.trans hnode
  · rw [hnone] at hnode
    cases hnode

theorem link (h : Paved l fs fs' m) {target : Bytes} (hlink : fs'.get? m = some (.link target)) :
    fs.get? m = some (.link target) := by
  obtain hsame | ⟨-, -, hmade⟩ := h
  · exact hsame.symm.trans hlink
  · rw [hmade] at hlink
    cases hlink

end Paved

/-- Directories were made where nothing was on the way to a place, and nothing else happened. -/
structure Grown (l : Location) (fs fs' : FileSystem) : Prop where
  wellFormed : fs.WellFormed → fs'.WellFormed
  workingDirectory : fs'.workingDirectory = fs.workingDirectory
  get? : ∀ m, Paved l fs fs' m

namespace Grown

theorem refl (l : Location) (fs : FileSystem) : Grown l fs fs := ⟨id, rfl, fun _ ↦ .inl rfl⟩

theorem trans (h : Grown l fs fs') (h' : Grown l fs' fs'') : Grown l fs fs'' :=
  ⟨h'.wellFormed ∘ h.wellFormed, h'.workingDirectory.trans h.workingDirectory, fun m ↦
    (h.get? m).trans (h'.get? m)⟩

theorem mono (h : Grown m fs fs') (hm : m <+: l) : Grown l fs fs' :=
  ⟨h.wellFormed, h.workingDirectory, fun k ↦ (h.get? k).imp_right fun hk ↦
    ⟨hk.1.trans hm, hk.2⟩⟩

theorem direct (h : Grown m fs fs') (hlinks : fs.Direct l) : fs'.Direct l :=
  fun k hk target hget ↦ hlinks k hk target ((h.get? k).link hget)

end Grown

theorem makeDirectory_plain (hfs : fs.WellFormed) (hn : Names fs.workingDirectory path l)
    (hlinks : fs.Direct l) (hne : path ≠ []) :
    (∃ fs', makeDirectory path fs = .ok () fs' ∧ Grown l fs fs') ∨
      ∃ e, makeDirectory path fs = .error e fs := by
  have hleads : Leads fs l (fs.resolve
      (if withoutTrailing path = [] then path else withoutTrailing path) false) := by
    split
    · exact leads_resolve hfs hn hlinks hne
    · next hne' => exact leads_resolve hfs (hn.withoutTrailing hne') hlinks hne'
  rw [makeDirectory_eq]
  generalize fs.resolve _ false = target at hleads
  cases hleads with
  | found _ => exact .inr ⟨_, rfl⟩
  | missing _ => exact .inr ⟨_, rfl⟩
  | refused _ => exact .inr ⟨_, rfl⟩
  | @free d name hl hd hnone =>
    subst hl
    refine .inl ⟨_, rfl, fun h ↦ h.set hd (.inl rfl), rfl, fun m ↦ ?_⟩
    by_cases hm : m = d ++ [name]
    · subst hm
      exact .inr ⟨List.prefix_refl _, hnone, get?_set_self _ (by simp)⟩
    · exact .inl (get?_set_of_ne _ hm)

theorem grown_ensureDirectory (hfs : fs.WellFormed) (hn : Names fs.workingDirectory path l)
    (hlinks : fs.Direct l) (hne : path ≠ []) :
    Grown l fs (remaining (ensureDirectory path fs)) := by
  unfold ensureDirectory
  obtain ⟨fs₁, hmake, hgrown⟩ | ⟨e, hmake⟩ := makeDirectory_plain hfs hn hlinks hne
  · rw [hmake]
    exact hgrown
  · rw [hmake]
    dsimp only
    split
    · exact .refl l fs
    · exact .refl l fs

theorem grown_makeTree {cwd : Location} {fromRoot : Bool} {up : List Name} (hfs : fs.WellFormed)
    (hcwd : fs.workingDirectory = cwd)
    (hplain : ∀ n ∈ up, (n ≠ [] ∧ separator ∉ n) ∧ n ≠ stepHere) (hup : stepUp ∉ up)
    (hlinks : fs.Direct ((if fromRoot then [] else cwd) ++ up.reverse)) :
    Grown ((if fromRoot then [] else cwd) ++ up.reverse) fs
      (remaining (makeTree fromRoot up fs)) := by
  induction up with
  | nil => exact .refl _ fs
  | cons step up ih =>
    subst hcwd
    have hplain' : ∀ n ∈ (step :: up).reverse, (n ≠ [] ∧ separator ∉ n) ∧ n ≠ stepHere :=
      fun n hn ↦ hplain n (List.mem_reverse.1 hn)
    have hnames := names_joinNames fs.workingDirectory fromRoot hplain'
      fun hmem ↦ hup (List.mem_reverse.1 hmem)
    have hne : joinNames fromRoot (step :: up).reverse ≠ [] := by
      intro hnil
      have hsteps := plainSteps_joinNames fromRoot hplain'
      rw [hnil, List.reverse_cons] at hsteps
      exact List.append_ne_nil_of_right_ne_nil _ (List.cons_ne_nil step []) hsteps.symm
    have hprefix : (if fromRoot then [] else fs.workingDirectory) ++ up.reverse <+:
        (if fromRoot then [] else fs.workingDirectory) ++ (step :: up).reverse := by
      rw [List.reverse_cons, ← List.append_assoc]
      exact List.prefix_append _ _
    have htree := (ih (fun n hn ↦ hplain n (List.mem_cons_of_mem step hn))
      (fun hmem ↦ hup (List.mem_cons_of_mem step hmem)) (hlinks.of_prefix hprefix)).mono hprefix
    generalize (if fromRoot then [] else fs.workingDirectory) ++ (step :: up).reverse = l
      at hnames hlinks htree ⊢
    unfold makeTree
    dsimp only
    obtain ⟨fs₁, hmake, hgrown⟩ | ⟨e, hmake⟩ := makeDirectory_plain hfs hnames hlinks hne
    · rw [hmake]
      exact hgrown
    rw [hmake]
    cases e
    case notFound =>
      dsimp only
      cases habove : makeTree fromRoot up fs with
      | ok u fs₂ =>
        rw [habove] at htree
        rw [← htree.workingDirectory] at hnames
        exact htree.trans (grown_ensureDirectory (htree.wellFormed hfs) hnames
          (htree.direct hlinks) hne)
      | error e fs₂ =>
        rw [habove] at htree
        exact htree
    all_goals
      dsimp only
      split
      · exact .refl _ fs
      · exact .refl _ fs

theorem grown_makeDirectories (hfs : fs.WellFormed) (hn : Names fs.workingDirectory path l)
    (hlinks : fs.Direct l) : Grown l fs (remaining (makeDirectories path fs)) := by
  unfold makeDirectories
  by_cases hne : path = []
  · rw [if_pos hne]
    exact .refl l fs
  rw [if_neg hne]
  obtain ⟨fs₁, hmake, hgrown⟩ | ⟨e, hmake⟩ := makeDirectory_plain hfs hn hlinks hne
  · rw [hmake]
    exact hgrown
  rw [hmake]
  cases e
  case notFound =>
    have hmem {n : Name} (h : n ∈ (plainSteps path).reverse.tail) : n ∈ plainSteps path :=
      List.mem_reverse.1 (List.mem_of_mem_tail h)
    have hprefix : (if (Route.ofBytes path).fromRoot then [] else fs.workingDirectory) ++
        (plainSteps path).reverse.tail.reverse <+: l := by
      rw [← hn.eq, placeOf, List.tail_reverse, List.reverse_reverse]
      exact (List.prefix_append_right_inj _).2 (List.dropLast_prefix _)
    have htree := (grown_makeTree hfs rfl (fun n h ↦ mem_plainSteps (hmem h))
      (fun h ↦ hn.no_up (hmem h)) (hlinks.of_prefix hprefix)).mono hprefix
    dsimp only
    cases habove : makeTree (Route.ofBytes path).fromRoot (plainSteps path).reverse.tail fs with
    | ok u fs₂ =>
      rw [habove] at htree
      rw [← htree.workingDirectory] at hn
      exact htree.trans
        (grown_ensureDirectory (htree.wellFormed hfs) hn (htree.direct hlinks) hne)
    | error e fs₂ =>
      rw [habove] at htree
      exact htree
  all_goals
    dsimp only
    split
    · exact .refl _ fs
    · exact .refl _ fs

theorem makeDirectories_plain (hfs : fs.WellFormed) (hn : Names fs.workingDirectory path l)
    (hlinks : fs.Direct l) (h : makeDirectories path fs = .ok () fs') : Grown l fs fs' := by
  have hgrown := grown_makeDirectories hfs hn hlinks
  rwa [h] at hgrown

theorem get?_removeTree_beneath (hl : l ≠ []) (hm : l <+: m) : (fs.removeTree l).get? m = none := by
  have hroot : m ≠ [] := by
    rintro rfl
    exact hl (List.prefix_nil.1 hm)
  rw [get?_removeTree hroot, if_pos (List.isPrefixOf_iff_prefix.2 hm)]

theorem get?_removeTree_outside (hm : ¬l <+: m) : (fs.removeTree l).get? m = fs.get? m := by
  by_cases hroot : m = []
  · rw [hroot, get?_root, get?_root]
  · rw [get?_removeTree hroot, if_neg fun h ↦ hm (List.isPrefixOf_iff_prefix.1 h)]

/-- Things went away, and nothing else happened. -/
structure Shrunk (fs fs' : FileSystem) : Prop where
  wellFormed : fs.WellFormed → fs'.WellFormed
  workingDirectory : fs'.workingDirectory = fs.workingDirectory
  get? : ∀ m, fs'.get? m = fs.get? m ∨ fs'.get? m = none

namespace Shrunk

theorem refl (fs : FileSystem) : Shrunk fs fs := ⟨id, rfl, fun _ ↦ .inl rfl⟩

theorem trans (h : Shrunk fs fs') (h' : Shrunk fs' fs'') : Shrunk fs fs'' := by
  refine ⟨h'.wellFormed ∘ h.wellFormed, h'.workingDirectory.trans h.workingDirectory, fun m ↦ ?_⟩
  obtain hsame | hnone := h'.get? m
  · exact (h.get? m).imp hsame.trans hsame.trans
  · exact .inr hnone

theorem was (h : Shrunk fs fs') {node : Node} (hnode : fs'.get? m = some node) :
    fs.get? m = some node := by
  obtain hsame | hnone := h.get? m
  · exact hsame.symm.trans hnode
  · rw [hnone] at hnode
    cases hnode

theorem none (h : Shrunk fs fs') (hnone : fs.get? m = .none) : fs'.get? m = .none := by
  obtain hsame | hgone := h.get? m
  · exact hsame.trans hnone
  · exact hgone

theorem removeTree (fs : FileSystem) (l : Location) : Shrunk fs (fs.removeTree l) := by
  refine ⟨fun h ↦ h.removeTree l, rfl, fun m ↦ ?_⟩
  by_cases hroot : m = []
  · subst hroot
    exact .inl rfl
  rw [get?_removeTree hroot]
  split
  · exact .inr rfl
  · exact .inl rfl

theorem removeBelow (fs : FileSystem) (l : Location) (left : List Location) :
    Shrunk fs (fs.removeBelow l left) := by
  refine ⟨fun h ↦ h.removeBelow l left, rfl, fun m ↦ ?_⟩
  rw [get?_removeBelow]
  split
  · exact .inr rfl
  · exact .inl rfl

end Shrunk

theorem shrunk_removeAt (fs : FileSystem) (l : Location) :
    Shrunk fs (remaining (removeAt l fs)) := by
  obtain hgone | ⟨left, hgone⟩ := remaining_removeAt fs l
  · rw [hgone]
    exact .removeTree fs l
  · rw [hgone]
    exact .removeBelow fs l left

/-- What is left of a link or of a directory after its removal: nothing, or the directory with what
the removal did not come to. -/
theorem removeDirectory_cases (fs : FileSystem) (path : Bytes) :
    remaining (removeDirectory path fs) = fs ∨ ∃ l node,
      fs.resolve path false = .ok (.found l node) ∧ (node = .directory ∨ ∃ t, node = .link t) ∧
      (remaining (removeDirectory path fs) = fs.removeTree l ∨
        ∃ left, remaining (removeDirectory path fs) = fs.removeBelow l left) := by
  rw [removeDirectory_eq]
  generalize fs.resolve path false = target
  rcases target with failure | ⟨l, node⟩ | ⟨d, name⟩
  · exact .inl rfl
  · cases node with
    | file content mode => exact .inl rfl
    | link target => exact .inr ⟨l, _, rfl, .inr ⟨target, rfl⟩, remaining_removeAt fs l⟩
    | directory =>
      refine .inr ⟨l, _, rfl, .inl rfl, ?_⟩
      dsimp only
      split
      next left _ => exact .inr ⟨left, rfl⟩
      split
      · exact .inr ⟨[], rfl⟩
      split
      · exact .inr ⟨[], rfl⟩
      split
      · refine .inr ⟨[], ?_⟩
        generalize (fs.removeBelow l).resolve path false = target
        rcases target with failure | ⟨l', node⟩ | ⟨d, name⟩ <;> rfl
      split
      · exact .inr ⟨[], rfl⟩
      · exact .inl rfl
  · exact .inl rfl

theorem shrunk_removeDirectory (fs : FileSystem) (path : Bytes) :
    Shrunk fs (remaining (removeDirectory path fs)) := by
  obtain hsame | ⟨l, node, -, -, hgone | ⟨left, hgone⟩⟩ := removeDirectory_cases fs path
  · rw [hsame]
    exact .refl fs
  · rw [hgone]
    exact .removeTree fs l
  · rw [hgone]
    exact .removeBelow fs l left

theorem shrunk_of_removeDirectory (h : ifAny (removeDirectory path) fs = .ok () fs') :
    Shrunk fs fs' := by
  have hshrunk := shrunk_removeDirectory fs path
  rwa [← remaining_ifAny, h] at hshrunk

theorem shrunk_removeFile (fs : FileSystem) (path : Bytes) :
    Shrunk fs (remaining (removeFile path fs)) := by
  rw [removeFile_eq]
  generalize fs.resolve path false = target
  rcases target with failure | ⟨l, node⟩ | ⟨d, name⟩
  · exact .refl fs
  · cases node with
    | directory => exact .refl fs
    | file content mode | link target => exact shrunk_removeAt fs l
  · exact .refl fs

theorem shrunk_of_removeFile (h : ifAny (removeFile path) fs = .ok () fs') : Shrunk fs fs' := by
  have hshrunk := shrunk_removeFile fs path
  rwa [← remaining_ifAny, h] at hshrunk

/-- Where things went away and nothing else happened, a path leads where it led or to nothing. -/
theorem Shrunk.resolve (h : Shrunk fs fs') (path : Bytes) (followLast : Bool) :
    fs'.resolve path followLast = fs.resolve path followLast ∨
      Absent (fs'.resolve path followLast) := by
  unfold FileSystem.resolve
  cases checkPath path with
  | error failure => exact .inl rfl
  | ok u =>
    rw [h.workingDirectory]
    exact walk_shrunk h.get?

theorem Shrunk.absent_of_absent (h : Shrunk fs fs') {followLast : Bool}
    (habsent : Absent (fs.resolve path followLast)) : Absent (fs'.resolve path followLast) := by
  obtain hsame | habsent' := h.resolve path followLast
  · rwa [hsame]
  · exact habsent'

theorem Shrunk.absent (h : Shrunk fs fs') {followLast : Bool} {node : Node}
    (hfound : fs.resolve path followLast = .ok (.found l node)) (hgone : fs'.get? l = .none) :
    Absent (fs'.resolve path followLast) := by
  refine (h.resolve path followLast).resolve_left fun hsame ↦ ?_
  have hthere := get?_of_walk_found (resolve_eq_ok.1 (hsame.trans hfound)).2
  rw [hgone] at hthere
  cases hthere

theorem absent_of_removeFile (h : ifAny (removeFile path) fs = .ok () fs') :
    Absent (fs'.resolve path false) := by
  rw [ifAny_eq_ok, removeFile_eq] at h
  cases hr : fs.resolve path false with
  | error failure =>
    rw [hr] at h
    obtain h | h := h <;> cases h
    rw [hr]
    exact .missing
  | ok target =>
    rw [hr] at h
    cases target with
    | free d name =>
      obtain h | h := h <;> cases h
      rw [hr]
      exact .free d name
    | found l node =>
      cases node with
      | directory => simp at h
      | file content mode | link target =>
        obtain rfl := removeAt_ok (h.resolve_right removeAt_ne_notFound)
        refine (Shrunk.removeTree fs l).absent hr (get?_removeTree_beneath ?_ (List.prefix_refl l))
        rintro rfl
        cases get?_of_walk_found (resolve_eq_ok.1 hr).2

theorem nodeAt?_of_absent {followLast : Bool} (h : Absent (fs.resolve path followLast)) :
    fs.nodeAt? path followLast = none := by
  unfold nodeAt?
  generalize fs.resolve path followLast = target at h
  cases h <;> rfl

/-- In a place and beneath it anything may have happened, except that no link was made; outside it
directories were made where nothing was on the way to it, and nothing else happened. -/
structure Within (o : Location) (fs fs' : FileSystem) : Prop where
  wellFormed : fs.WellFormed → fs'.WellFormed
  workingDirectory : fs'.workingDirectory = fs.workingDirectory
  links : ∀ m target, fs'.get? m = some (.link target) → fs.get? m = some (.link target)
  outside : ∀ m, ¬o <+: m → Paved o fs fs' m

namespace Within

variable {o : Location}

theorem refl (o : Location) (fs : FileSystem) : Within o fs fs :=
  ⟨id, rfl, fun _ _ ↦ id, fun _ _ ↦ .inl rfl⟩

theorem trans (h : Within o fs fs') (h' : Within o fs' fs'') : Within o fs fs'' :=
  ⟨h'.wellFormed ∘ h.wellFormed, h'.workingDirectory.trans h.workingDirectory,
    fun m target ↦ h.links m target ∘ h'.links m target, fun m hm ↦
      (h.outside m hm).trans (h'.outside m hm)⟩

theorem mono (h : Within o fs fs') (hl : l <+: o) : Within l fs fs' := by
  refine ⟨h.wellFormed, h.workingDirectory, h.links, fun m hm ↦ ?_⟩
  refine (h.outside m fun hom ↦ hm (hl.trans hom)).imp_right fun hmade ↦ ?_
  exact ⟨(List.prefix_or_prefix_of_prefix hmade.1 hl).resolve_right hm, hmade.2⟩

theorem stays (h : Within o fs fs') (hm : ¬o <+: m) {node : Node} (hnode : fs.get? m = some node) :
    fs'.get? m = some node :=
  (h.outside m hm).stays hnode

theorem get?_of_apart (h : Within o fs fs') (hm : Apart o m) : fs'.get? m = fs.get? m :=
  (h.outside m hm.1).resolve_right fun hmade ↦ hm.2 hmade.1

theorem of_grown (h : Grown l fs fs') : Within l fs fs' :=
  ⟨h.wellFormed, h.workingDirectory, fun m _ hget ↦ (h.get? m).link hget, fun m _ ↦ h.get? m⟩

theorem removeTree (fs : FileSystem) (l : Location) : Within l fs (fs.removeTree l) := by
  have hshrunk := Shrunk.removeTree fs l
  exact ⟨hshrunk.wellFormed, hshrunk.workingDirectory, fun m _ hget ↦ hshrunk.was hget, fun m hm ↦
    .inl (get?_removeTree_outside hm)⟩

theorem removeBelow (fs : FileSystem) (l : Location) (left : List Location) :
    Within l fs (fs.removeBelow l left) := by
  have hshrunk := Shrunk.removeBelow fs l left
  refine ⟨hshrunk.wellFormed, hshrunk.workingDirectory, fun m _ hget ↦ hshrunk.was hget,
    fun m hm ↦ .inl ?_⟩
  rw [get?_removeBelow, if_neg]
  exact fun hcleared ↦ hm (isBelow_eq_true.1 (isCleared_eq_true.1 hcleared.1).1).1

theorem removeAt (fs : FileSystem) (l : Location) :
    Within l fs (remaining (FileSystem.removeAt l fs)) := by
  obtain hgone | ⟨left, hgone⟩ := remaining_removeAt fs l
  · rw [hgone]
    exact .removeTree fs l
  · rw [hgone]
    exact .removeBelow fs l left

theorem set {content : Content} {mode : Nat} (hl : l ≠ [])
    (hfs : (fs.set l (.file content mode)).WellFormed) :
    Within l fs (fs.set l (.file content mode)) := by
  refine ⟨fun _ ↦ hfs, rfl, fun m target hget ↦ ?_, fun m hm ↦ .inl (get?_set_of_ne _ ?_)⟩
  · by_cases hm : m = l
    · rw [hm, get?_set_self _ hl] at hget
      cases hget
    · rwa [get?_set_of_ne _ hm] at hget
  · rintro rfl
    exact hm (List.prefix_refl m)

end Within

section Wherever

variable (hfs : fs.WellFormed) (hn : Names fs.workingDirectory path l) (hlinks : fs.Direct l)
  (hne : path ≠ [])
include hfs hn hlinks hne

theorem within_removeFile : Within l fs (remaining (removeFile path fs)) := by
  have hleads : Leads fs l (fs.resolve path false) := leads_resolve hfs hn hlinks hne
  rw [removeFile_eq]
  generalize fs.resolve path false = target at hleads
  cases hleads with
  | @found node _ =>
    cases node with
    | directory => exact .refl l fs
    | file content mode | link target => exact .removeAt fs l
  | free | missing | refused => exact .refl l fs

theorem within_removeDirectory : Within l fs (remaining (removeDirectory path fs)) := by
  have hleads : Leads fs l (fs.resolve path false) := leads_resolve hfs hn hlinks hne
  obtain hsame | ⟨m, node, hfound, -, hgone⟩ := removeDirectory_cases fs path
  · rw [hsame]
    exact .refl l fs
  rw [hfound] at hleads
  cases hleads
  obtain hgone | ⟨left, hgone⟩ := hgone
  · rw [hgone]
    exact .removeTree fs l
  · rw [hgone]
    exact .removeBelow fs l left

theorem within_write (content : Content) : Within l fs (remaining (write path content fs)) := by
  cases hwrite : write path content fs with
  | ok u fs' =>
    obtain ⟨hl, ⟨mode, rfl⟩, hfs'⟩ := write_plain hfs hn hlinks hne hwrite
    exact .set hl hfs'
  | error e fs' =>
    rw [write_error hwrite]
    exact .refl l fs

end Wherever

theorem content_stays (hfs : fs.WellFormed) (hfs' : fs'.WellFormed)
    (hcwd : fs'.workingDirectory = fs.workingDirectory) (hn : Names fs.workingDirectory path l)
    (hlinks : fs.Direct l) {node : Node} (hnode : fs.get? l = some node)
    (hnode' : fs'.get? l = some node) {content : Content}
    (h : FileSystem.content path fs = .ok content fs) :
    FileSystem.content path fs' = .ok content fs' := by
  have hsame (m : Location) (hm : m <+: l) : fs'.get? m = fs.get? m := by
    by_cases heq : m = l
    · rw [heq, hnode, hnode']
    · rw [hfs.directory_of_prefix hm heq (by simp [hnode]),
        hfs'.directory_of_prefix hm heq (by simp [hnode'])]
  have hresolve : fs'.resolve path true = fs.resolve path true :=
    resolve_congr hn hlinks hcwd hsame
  rw [content_eq] at h ⊢
  rw [hresolve]
  generalize fs.resolve path true = target at h
  rcases target with failure | ⟨l', node'⟩ | ⟨d, name⟩
  · cases h
  · cases node' with
    | file old mode =>
      cases h
      rfl
    | directory | link target => cases h
  · cases h

end FileSystem

end ReleaseTrain
