import ReleaseTrain.FileSystem.Archive
import ReleaseTrain.Proofs.Lookup
import ReleaseTrain.Proofs.Places

namespace ReleaseTrain

open Text (Bytes)

namespace FileSystem

variable {fs fs' : FileSystem} {l m rel : Location} {node : Node}

theorem isBelow_iff : isBelow l m = true ↔ ∃ rel, rel ≠ [] ∧ m = l ++ rel := by
  rw [isBelow_eq_true]
  constructor
  · intro h
    obtain ⟨⟨rel, rfl⟩, hne⟩ := h
    exact ⟨rel, fun hrel ↦ hne (by rw [hrel, List.append_nil]), rfl⟩
  · intro h
    obtain ⟨rel, hrel, rfl⟩ := h
    exact ⟨List.prefix_append l rel, fun heq ↦ hrel (by simpa using heq)⟩

theorem mem_contents (hfs : fs.WellFormed) :
    (rel, node) ∈ fs.contents l ↔ rel ≠ [] ∧ fs.get? (l ++ rel) = some node := by
  have hget (hrel : rel ≠ []) : fs.get? (l ++ rel) = some node ↔ (l ++ rel, node) ∈ fs.entries := by
    unfold get?
    rw [if_neg (List.append_ne_nil_of_right_ne_nil l hrel), lookup_eq_some_iff_mem hfs.once]
  unfold contents below
  rw [List.mem_mergeSort, List.mem_map]
  constructor
  · intro h
    obtain ⟨⟨m, node'⟩, hmem, heq⟩ := h
    obtain ⟨hmem, hbelow⟩ := List.mem_filter.1 hmem
    obtain ⟨rel', hrel, rfl⟩ := isBelow_iff.1 hbelow
    dsimp only at heq
    rw [List.drop_left, Prod.mk.injEq] at heq
    obtain ⟨rfl, rfl⟩ := heq
    exact ⟨hrel, (hget hrel).2 hmem⟩
  · intro h
    obtain ⟨hrel, hsome⟩ := h
    refine ⟨(l ++ rel, node), List.mem_filter.2 ⟨(hget hrel).1 hsome, ?_⟩, ?_⟩
    · exact isBelow_iff.2 ⟨rel, hrel, rfl⟩
    · exact congrArg (·, node) List.drop_left

theorem nodup_contents (hfs : fs.WellFormed) (l : Location) :
    ((fs.contents l).map Prod.fst).Nodup := by
  have hperm := (List.mergeSort_perm ((fs.below l).map fun e ↦ (e.1.drop l.length, e.2))
    fun a b ↦ a.1 ≤ b.1).map Prod.fst
  refine hperm.nodup_iff.2 ?_
  rw [List.map_map]
  refine List.pairwise_map.2 ?_
  have honce := (List.pairwise_map.1 hfs.once).sublist
    (List.filter_sublist (p := fun e ↦ isBelow l e.1))
  refine honce.imp_of_mem fun {a b} ha hb hne heq ↦ hne ?_
  obtain ⟨rel, -, ha⟩ := isBelow_iff.1 (List.mem_filter.1 ha).2
  obtain ⟨rel', -, hb⟩ := isBelow_iff.1 (List.mem_filter.1 hb).2
  dsimp only [Function.comp_apply] at heq
  rw [ha, hb, List.drop_left, List.drop_left] at heq
  rw [ha, hb, heq]

theorem nodup_of_map_fst {entries : List (Location × Node)}
    (h : (entries.map Prod.fst).Nodup) : entries.Nodup :=
  List.Pairwise.of_map Prod.fst (fun _ _ hne heq ↦ hne (congrArg Prod.fst heq)) h

theorem pairwise_contents (fs : FileSystem) (l : Location) :
    (fs.contents l).Pairwise fun a b ↦ a.1 ≤ b.1 := by
  have h : (fs.contents l).Pairwise fun a b ↦ decide (a.1 ≤ b.1) = true := by
    refine List.pairwise_mergeSort (fun a b c hab hbc ↦ decide_eq_true ?_) (fun a b ↦ ?_) _
    · exact List.le_trans (of_decide_eq_true hab) (of_decide_eq_true hbc)
    · simpa using List.le_total a.1 b.1
  exact h.imp fun hab ↦ of_decide_eq_true hab

theorem contents_congr (hfs : fs.WellFormed) (hfs' : fs'.WellFormed)
    (h : ∀ rel, rel ≠ [] → fs'.get? (l ++ rel) = fs.get? (l ++ rel)) :
    fs'.contents l = fs.contents l := by
  have hmem (e : Location × Node) : e ∈ fs'.contents l ↔ e ∈ fs.contents l := by
    obtain ⟨rel, node⟩ := e
    rw [mem_contents hfs, mem_contents hfs']
    exact and_congr_right fun hrel ↦ by rw [h rel hrel]
  refine List.Perm.eq_of_pairwise ?_ (pairwise_contents fs' l) (pairwise_contents fs l) ?_
  · intro a b ha hb hab hba
    obtain ⟨rel, node⟩ := a
    obtain ⟨rel', node'⟩ := b
    have hrel : rel = rel' := List.le_antisymm hab hba
    subst hrel
    have hnode := ((mem_contents hfs).1 ((hmem _).1 ha)).2
    have hnode' := ((mem_contents hfs).1 hb).2
    rw [hnode] at hnode'
    rw [Option.some.inj hnode']
  · refine (List.perm_ext_iff_of_nodup ?_ ?_).2 hmem
    · exact nodup_of_map_fst (nodup_contents hfs' l)
    · exact nodup_of_map_fst (nodup_contents hfs l)

/-- The archive of a directory depends on nothing but what is beneath the directory. -/
theorem archiveEntries_congr (hfs : fs.WellFormed) (hfs' : fs'.WellFormed)
    (h : ∀ rel, rel ≠ [] → fs'.get? (l ++ rel) = fs.get? (l ++ rel)) :
    fs'.archiveEntries l = fs.archiveEntries l := by
  unfold archiveEntries
  rw [contents_congr hfs hfs' h]

/-- The entries are those of the files and directories beneath a directory, each once. -/
structure Holds (fs : FileSystem) (l : Location) (entries : List ArchiveEntry) : Prop where
  mem_iff : ∀ e, e ∈ entries ↔ ∃ rel node, rel ≠ [] ∧ fs.get? (l ++ rel) = some node ∧
    archiveEntry? (rel, node) = some e
  nodup : (entries.map ArchiveEntry.name).Nodup

theorem mem_archiveEntries (hfs : fs.WellFormed) {e : ArchiveEntry} :
    e ∈ fs.archiveEntries l ↔ ∃ rel node, rel ≠ [] ∧ fs.get? (l ++ rel) = some node ∧
      archiveEntry? (rel, node) = some e := by
  unfold archiveEntries
  rw [List.mem_filterMap]
  constructor
  · intro h
    obtain ⟨⟨rel, node⟩, hmem, he⟩ := h
    obtain ⟨hrel, hnode⟩ := (mem_contents hfs).1 hmem
    exact ⟨rel, node, hrel, hnode, he⟩
  · intro h
    obtain ⟨rel, node, hrel, hnode, he⟩ := h
    exact ⟨(rel, node), (mem_contents hfs).2 ⟨hrel, hnode⟩, he⟩

theorem holds_archiveEntries (hfs : fs.WellFormed)
    (hnodup : ((fs.archiveEntries l).map ArchiveEntry.name).Nodup) :
    fs.Holds l (fs.archiveEntries l) :=
  ⟨fun _ ↦ mem_archiveEntries hfs, hnodup⟩

end FileSystem

theorem distinctEntries_eq {seen : List String} {es kept : List ArchiveEntry}
    (h : distinctEntries seen es = (kept, none)) :
    kept = es ∧ (es.map ArchiveEntry.name).Nodup ∧ ∀ e ∈ es, e.name ∉ seen := by
  induction es generalizing seen kept with
  | nil =>
    cases h
    exact ⟨rfl, List.nodup_nil, by simp⟩
  | cons e es ih =>
    unfold distinctEntries at h
    split at h
    · cases h
    next hseen =>
    cases hrest : distinctEntries (e.name :: seen) es with
    | mk rest again =>
      rw [hrest] at h
      cases h
      obtain ⟨rfl, hnodup, hnew⟩ := ih hrest
      have hseen : e.name ∉ seen := by simpa using hseen
      refine ⟨rfl, ?_, ?_⟩
      · rw [List.map_cons, List.nodup_cons]
        refine ⟨fun hmem ↦ ?_, hnodup⟩
        obtain ⟨e', he', hname⟩ := List.mem_map.1 hmem
        exact hnew e' he' (hname ▸ List.mem_cons_self)
      · intro e' he'
        rcases List.mem_cons.1 he' with rfl | he'
        · exact hseen
        · exact fun hmem ↦ hnew e' he' (List.mem_cons_of_mem _ hmem)

end ReleaseTrain
