import Mathlib.Algebra.Order.BigOperators.Group.List
import Mathlib.Algebra.Order.Group.Nat
import Mathlib.Data.List.Sort
import ReleaseTrain.Proofs.ArchivedTree
import ReleaseTrain.Proofs.TextReading

namespace ReleaseTrain

open Text (Bytes)

namespace FileSystem

variable {fs fs' : FileSystem} {l l' : Location} {n : Name} {rel : Location} {node : Node}

theorem sorted_contents (hfs : fs.WellFormed) (l : Location) :
    (fs.contents l).Pairwise fun a b ↦ a.1 < b.1 := by
  have hne := List.pairwise_map.1 (nodup_contents hfs l)
  exact ((pairwise_contents fs l).and hne).imp fun h ↦ Std.lt_of_le_of_ne h.1 h.2

def children (fs : FileSystem) (l : Location) : List Name :=
  (fs.contents l).filterMap fun e ↦ if e.1.length = 1 then e.1.head? else none

theorem eq_singleton_of_child {e : Location × Node}
    (h : (if e.1.length = 1 then e.1.head? else none) = some n) : e.1 = [n] := by
  split at h
  · next hlength =>
    obtain ⟨m, hm⟩ := List.length_eq_one_iff.1 hlength
    rw [hm] at h ⊢
    cases h
    rfl
  · cases h

theorem mem_children (hfs : fs.WellFormed) : n ∈ fs.children l ↔ fs.get? (l ++ [n]) ≠ none := by
  unfold children
  rw [List.mem_filterMap]
  constructor
  · rintro ⟨⟨rel, node⟩, hmem, hchild⟩
    obtain rfl : rel = [n] := eq_singleton_of_child hchild
    simp [((mem_contents hfs).1 hmem).2]
  · intro h
    obtain ⟨node, hnode⟩ := Option.ne_none_iff_exists'.1 h
    exact ⟨([n], node), (mem_contents hfs).2 ⟨by simp, hnode⟩, rfl⟩

theorem sorted_children (hfs : fs.WellFormed) (l : Location) :
    (fs.children l).Pairwise (· < ·) := by
  refine (sorted_contents hfs l).filterMap _ fun e e' hlt n hn n' hn' ↦ ?_
  rw [eq_singleton_of_child hn, eq_singleton_of_child hn', List.cons_lt_cons_iff] at hlt
  exact hlt.resolve_right fun h ↦ List.lt_irrefl _ h.2

def branch (fs : FileSystem) (l : Location) (n : Name) : List (Location × Node) :=
  (fs.get? (l ++ [n])).toList.map ([n], ·) ++ (fs.contents (l ++ [n])).map fun e ↦ (n :: e.1, e.2)

theorem mem_branch (hfs : fs.WellFormed) {e : Location × Node} : e ∈ fs.branch l n ↔
    ∃ rel, e.1 = n :: rel ∧ fs.get? (l ++ e.1) = some e.2 := by
  obtain ⟨rel, node⟩ := e
  unfold branch
  rw [List.mem_append, List.mem_map, List.mem_map]
  constructor
  · rintro (⟨node', hnode, heq⟩ | ⟨⟨rel', node'⟩, hmem, heq⟩)
    · cases heq
      exact ⟨[], rfl, by simpa using hnode⟩
    · cases heq
      refine ⟨rel', rfl, ?_⟩
      dsimp only
      rw [List.append_cons]
      exact ((mem_contents hfs).1 hmem).2
  · rintro ⟨rel', hrel, hnode⟩
    dsimp only at hrel hnode
    subst hrel
    rw [List.append_cons] at hnode
    cases rel' with
    | nil => exact .inl ⟨node, by simpa using hnode, rfl⟩
    | cons m rel' => exact .inr ⟨(m :: rel', node), (mem_contents hfs).2 ⟨by simp, hnode⟩, rfl⟩

theorem sorted_branch (hfs : fs.WellFormed) (l : Location) (n : Name) :
    (fs.branch l n).Pairwise fun a b ↦ a.1 < b.1 := by
  refine List.pairwise_append.2 ⟨?_, ?_, ?_⟩
  · cases fs.get? (l ++ [n]) <;> simp
  · refine List.pairwise_map.2 ((sorted_contents hfs _).imp fun h ↦ ?_)
    exact List.cons_lt_cons_iff.2 (.inr ⟨rfl, h⟩)
  · intro a ha b hb
    obtain ⟨node, -, rfl⟩ := List.mem_map.1 ha
    obtain ⟨⟨rel, node'⟩, hmem, rfl⟩ := List.mem_map.1 hb
    obtain ⟨m, rel', rfl⟩ := List.exists_cons_of_ne_nil ((mem_contents hfs).1 hmem).1
    exact List.cons_lt_cons_iff.2 (.inr ⟨rfl, List.nil_lt_cons _ _⟩)

theorem eq_of_sorted_by {α β : Type} [LT β] [Std.Asymm fun a b : β ↦ a < b] {key : α → β}
    {xs ys : List α} (hx : xs.Pairwise fun a b ↦ key a < key b)
    (hy : ys.Pairwise fun a b ↦ key a < key b) (hmem : ∀ a, a ∈ xs ↔ a ∈ ys) : xs = ys := by
  have hasymm {a b : α} (h : key a < key b) : ¬key b < key a := Std.Asymm.asymm (key a) (key b) h
  have hantisymm : Std.Antisymm fun a b : α ↦ key a < key b :=
    ⟨fun _ _ h h' ↦ absurd h' (hasymm h)⟩
  have hirrefl : Std.Irrefl fun a b : α ↦ key a < key b := ⟨fun _ h ↦ hasymm h h⟩
  exact hx.eq_of_mem_iff hy hmem

theorem contents_eq_flatMap (hfs : fs.WellFormed) (l : Location) :
    fs.contents l = (fs.children l).flatMap (fs.branch l) := by
  have hsorted : ((fs.children l).flatMap (fs.branch l)).Pairwise fun a b ↦ a.1 < b.1 := by
    refine List.pairwise_flatMap.2 ⟨fun n _ ↦ sorted_branch hfs l n, ?_⟩
    refine (sorted_children hfs l).imp fun {n n'} hlt a ha b hb ↦ ?_
    obtain ⟨rel, ha, -⟩ := (mem_branch hfs).1 ha
    obtain ⟨rel', hb, -⟩ := (mem_branch hfs).1 hb
    rw [ha, hb]
    exact List.cons_lt_cons_iff.2 (.inl hlt)
  refine eq_of_sorted_by (sorted_contents hfs l) hsorted fun e ↦ ?_
  obtain ⟨rel, node⟩ := e
  rw [mem_contents hfs, List.mem_flatMap]
  constructor
  · rintro ⟨hrel, hnode⟩
    obtain ⟨n, rel, rfl⟩ := List.exists_cons_of_ne_nil hrel
    refine ⟨n, (mem_children hfs).2 fun hnone ↦ ?_, (mem_branch hfs).2 ⟨rel, rfl, hnode⟩⟩
    rw [List.append_cons] at hnode
    rw [hfs.none_of_prefix (List.prefix_append _ rel) hnone] at hnode
    cases hnode
  · rintro ⟨n, -, hmem⟩
    obtain ⟨rel', hrel, hnode⟩ := (mem_branch hfs).1 hmem
    exact ⟨by rw [show rel = n :: rel' from hrel]; simp, hnode⟩

/-- A name that a file can have, that is text and has no backslash in it. -/
structure IsPortable (n : Name) : Prop where
  text : ∃ t, Path.IsPlainName t ∧ '\\' ∉ t.toList ∧ n = Text.encode t

def Portable (fs : FileSystem) (root : Location) : Prop :=
  ∀ l n, root <+: l → fs.get? (l ++ [n]) ≠ none → IsPortable n

theorem IsPortable.encode_lossy (h : IsPortable n) : Text.encode (Text.lossy n) = n := by
  obtain ⟨t, -, -, rfl⟩ := h
  rw [Text.lossy_encode]

theorem Portable.of_mem (h : fs.Portable l) (hfs : fs.WellFormed)
    (hrel : fs.get? (l ++ rel) ≠ none) (hn : n ∈ rel) : IsPortable n := by
  obtain ⟨before, after, rfl⟩ := List.append_of_mem hn
  refine h (l ++ before) n (List.prefix_append _ _) fun hnone ↦ hrel ?_
  rw [← List.append_assoc, List.append_cons]
  exact hfs.none_of_prefix (List.prefix_append _ after) hnone

theorem map_encode_lossy (h : ∀ n ∈ rel, IsPortable n) :
    (rel.map Text.lossy).map Text.encode = rel := by
  rw [List.map_map]
  exact (List.map_congr_left fun n hn ↦ (h n hn).encode_lossy).trans (List.map_id _)

theorem map_lossy_encode (path : List String) :
    (path.map Text.encode).map Text.lossy = path := by
  rw [List.map_map]
  exact (List.map_congr_left fun t _ ↦ Text.lossy_encode t).trans (List.map_id _)

/-- The entry of what stands at a path, given by its names: the directory with a separator behind
its name, the file with its rights and all its bytes. A link has none. -/
def ownEntry (path : List String) : Option Node → List ArchiveEntry
  | some .directory => [.directory (Text.join "/" path ++ "/")]
  | some (.file content mode) => [.file (Text.join "/" path) (mode &&& 0o777) content.toBytes]
  | some (.link _) | none => []

/-- The walk below a directory, whose own names are given: what is in it comes by the bytes of the
names, each thing's own entry before those of what is below it. -/
inductive Listing (fs : FileSystem) : Location → List String → List ArchiveEntry → Prop
  | into {l : Location} {path : List String} (names : List String)
      (below : String → List ArchiveEntry)
      (hnames : ∀ n, fs.get? (l ++ [n]) ≠ none ↔ ∃ t ∈ names, Text.encode t = n)
      (hsorted : names.Pairwise fun t u ↦ Text.encode t < Text.encode u)
      (hbelow : ∀ t ∈ names, Listing fs (l ++ [Text.encode t]) (path ++ [t]) (below t)) :
      Listing fs l path (names.flatMap fun t ↦
        ownEntry (path ++ [t]) (fs.get? (l ++ [Text.encode t])) ++ below t)

/-- Of one tree, wherever it stands, there is one walk. -/
theorem Listing.unique {path : List String} {entries entries' : List ArchiveEntry}
    (h : Listing fs l path entries) (h' : Listing fs' l' path entries')
    (hsame : ∀ rel, rel ≠ [] → fs'.get? (l' ++ rel) = fs.get? (l ++ rel)) : entries' = entries := by
  induction h generalizing l' entries' with
  | @into l path names below hnames hsorted hbelow ih =>
    cases h' with
    | into names' below' hnames' hsorted' hbelow' =>
      have hmem (t : String) : t ∈ names' ↔ t ∈ names := by
        have hthere := hnames (Text.encode t)
        rw [← hsame _ (List.cons_ne_nil _ _), hnames'] at hthere
        simpa [Text.encode_inj] using hthere
      obtain rfl : names' = names := eq_of_sorted_by hsorted' hsorted hmem
      refine List.flatMap_congr fun t ht ↦ ?_
      rw [hsame _ (List.cons_ne_nil _ _), ih t ht (hbelow' t ht) fun rel _ ↦ ?_]
      rw [← List.append_cons, ← List.append_cons]
      exact hsame _ (List.cons_ne_nil _ _)

def entriesFrom (fs : FileSystem) (path : List String) (l : Location) : List ArchiveEntry :=
  (fs.contents l).flatMap fun e ↦ ownEntry (path ++ e.1.map Text.lossy) (some e.2)

theorem entriesFrom_eq (hfs : fs.WellFormed) (path : List String) (l : Location) :
    fs.entriesFrom path l = (fs.children l).flatMap fun n ↦
      ownEntry (path ++ [Text.lossy n]) (fs.get? (l ++ [n])) ++
        fs.entriesFrom (path ++ [Text.lossy n]) (l ++ [n]) := by
  unfold entriesFrom
  rw [contents_eq_flatMap hfs, List.flatMap_assoc]
  refine List.flatMap_congr fun n _ ↦ ?_
  unfold branch
  rw [List.flatMap_append, List.flatMap_map, List.flatMap_map]
  congr 1
  · cases fs.get? (l ++ [n]) <;> simp [ownEntry]
  · simp only [List.map_cons, List.append_assoc, List.singleton_append]

theorem listing_of_children (hfs : fs.WellFormed) (hnames : fs.Portable l) {path : List String}
    (hbelow : ∀ n ∈ fs.children l, Listing fs (l ++ [n]) (path ++ [Text.lossy n])
      (fs.entriesFrom (path ++ [Text.lossy n]) (l ++ [n]))) :
    Listing fs l path (fs.entriesFrom path l) := by
  have hread {n : Name} (hn : n ∈ fs.children l) : Text.encode (Text.lossy n) = n :=
    (hnames l n (List.prefix_refl l) ((mem_children hfs).1 hn)).encode_lossy
  have hentries : fs.entriesFrom path l = ((fs.children l).map Text.lossy).flatMap fun t ↦
      ownEntry (path ++ [t]) (fs.get? (l ++ [Text.encode t])) ++
        fs.entriesFrom (path ++ [t]) (l ++ [Text.encode t]) := by
    rw [entriesFrom_eq hfs, List.flatMap_map]
    exact List.flatMap_congr fun n hn ↦ by rw [hread hn]
  rw [hentries]
  refine .into _ (fun t ↦ fs.entriesFrom (path ++ [t]) (l ++ [Text.encode t])) (fun n ↦ ?_) ?_ ?_
  · rw [← mem_children hfs]
    constructor
    · exact fun hn ↦ ⟨Text.lossy n, List.mem_map_of_mem hn, hread hn⟩
    · rintro ⟨t, ht, rfl⟩
      obtain ⟨n, hn, rfl⟩ := List.mem_map.1 ht
      rwa [hread hn]
  · refine List.pairwise_map.2 ((sorted_children hfs l).imp_of_mem fun {n m} hn hm hlt ↦ ?_)
    rwa [hread hn, hread hm]
  · intro t ht
    obtain ⟨n, hn, rfl⟩ := List.mem_map.1 ht
    rw [hread hn]
    exact hbelow n hn

theorem Portable.below (h : fs.Portable l) (n : Name) : fs.Portable (l ++ [n]) :=
  fun m k hm ↦ h m k ((List.prefix_append _ _).trans hm)

/-- The walk of a directory gives the entries of all that is sorted below it. The induction is on
how deep the directory is. -/
theorem listing_entriesFrom (hfs : fs.WellFormed) {depth : Nat} (hnames : fs.Portable l)
    (hdepth : ∀ rel, fs.get? (l ++ rel) ≠ none → rel.length ≤ depth) (path : List String) :
    Listing fs l path (fs.entriesFrom path l) := by
  induction depth generalizing l path with
  | zero =>
    refine listing_of_children hfs hnames fun n hn ↦ ?_
    have hlength := hdepth [n] ((mem_children hfs).1 hn)
    simp at hlength
  | succ depth ih =>
    refine listing_of_children hfs hnames fun n hn ↦ ih (hnames.below n) (fun rel hrel ↦ ?_) _
    rw [← List.append_cons] at hrel
    simpa using hdepth (n :: rel) hrel

theorem exists_depth (fs : FileSystem) (l : Location) :
    ∃ depth, ∀ rel, fs.get? (l ++ rel) ≠ none → rel.length ≤ depth := by
  refine ⟨(fs.entries.map fun e ↦ e.1.length).sum, fun rel hrel ↦ ?_⟩
  obtain ⟨node, hnode⟩ := Option.ne_none_iff_exists'.1 hrel
  by_cases hroot : l ++ rel = []
  · simp [(List.append_eq_nil_iff.1 hroot).2]
  · have hlength : (l ++ rel).length ≤ (fs.entries.map fun e ↦ e.1.length).sum :=
      List.le_sum_of_mem (List.mem_map_of_mem (mem_entries hroot hnode))
    rw [List.length_append] at hlength
    omega

theorem exists_getLast?_join {path : List String} (hpath : path ≠ []) (h : ∀ t ∈ path, t ≠ "") :
    ∃ c, (Text.join "/" path).toList.getLast? = some c ∧ ∃ t ∈ path, c ∈ t.toList := by
  induction path with
  | nil => exact absurd rfl hpath
  | cons t path ih =>
    cases path with
    | nil =>
      have hne : t.toList ≠ [] := fun hnil ↦
        h t List.mem_cons_self (String.toList_eq_nil_iff.1 hnil)
      refine ⟨t.toList.getLast hne, List.getLast?_eq_some_getLast hne, t, List.mem_cons_self, ?_⟩
      exact List.getLast_mem hne
    | cons u path =>
      obtain ⟨c, hlast, v, hv, hc⟩ :=
        ih (List.cons_ne_nil u path) fun v hv ↦ h v (List.mem_cons_of_mem t hv)
      refine ⟨c, ?_, v, List.mem_cons_of_mem t hv, hc⟩
      change (t ++ "/" ++ Text.join "/" (u :: path)).toList.getLast? = some c
      rw [String.toList_append, List.getLast?_append, hlast]
      rfl

theorem directoryName_join {path : List String} (hpath : path ≠ [])
    (h : ∀ t ∈ path, Path.IsPlainName t ∧ '\\' ∉ t.toList) :
    directoryName (Text.join "/" path) = Text.join "/" path ++ "/" := by
  obtain ⟨c, hlast, t, ht, hc⟩ := exists_getLast?_join hpath fun t ht ↦ (h t ht).1.ne_empty
  unfold directoryName
  rw [hlast]
  split
  · next heq =>
    cases heq
    exact absurd hc (h t ht).1.no_separator
  · next heq =>
    cases heq
    exact absurd hc (h t ht).2
  · rfl

theorem archiveEntry?_eq (h : ∀ n ∈ rel, IsPortable n) (hrel : rel ≠ []) (node : Node) :
    Option.toList ( archiveEntry? (rel, node)) = ownEntry (rel.map Text.lossy) (some node) := by
  cases node with
  | link target => rfl
  | file content mode =>
    have hmode : mode % 0o1000 = mode &&& 0o777 := (Nat.and_two_pow_sub_one_eq_mod mode 9).symm
    exact congrArg (fun rights ↦ [ArchiveEntry.file (entryName rel) rights content.toBytes]) hmode
  | directory =>
    have hname : directoryName (entryName rel) = Text.join "/" (rel.map Text.lossy) ++ "/" := by
      refine directoryName_join (by simpa using hrel) fun t ht ↦ ?_
      obtain ⟨n, hn, rfl⟩ := List.mem_map.1 ht
      obtain ⟨t, hplain, hslash, rfl⟩ := (h n hn).text
      rw [Text.lossy_encode]
      exact ⟨hplain, hslash⟩
    exact congrArg (fun name ↦ [ArchiveEntry.directory name]) hname

theorem archiveEntries_eq (hfs : fs.WellFormed) (hnames : fs.Portable l) :
    fs.archiveEntries l = fs.entriesFrom [] l := by
  unfold archiveEntries entriesFrom
  rw [List.filterMap_eq_flatMap_toList]
  refine List.flatMap_congr fun e he ↦ ?_
  obtain ⟨hrel, hnode⟩ := (mem_contents hfs).1 he
  exact archiveEntry?_eq (fun n ↦ hnames.of_mem hfs (by simp [hnode])) hrel e.2

theorem mem_entriesFrom (hfs : fs.WellFormed) (hnames : fs.Portable l) {e : ArchiveEntry} :
    e ∈ fs.entriesFrom [] l ↔
      ∃ path, path ≠ [] ∧ e ∈ ownEntry path (fs.get? (l ++ path.map Text.encode)) := by
  unfold entriesFrom
  rw [List.mem_flatMap]
  constructor
  · rintro ⟨⟨rel, node⟩, hmem, he⟩
    obtain ⟨hrel, hnode⟩ := (mem_contents hfs).1 hmem
    refine ⟨rel.map Text.lossy, by simpa using hrel, ?_⟩
    rw [map_encode_lossy fun n ↦ hnames.of_mem hfs (by simp [hnode]), hnode]
    exact he
  · rintro ⟨path, hpath, he⟩
    cases hnode : fs.get? (l ++ path.map Text.encode) with
    | none =>
      rw [hnode] at he
      cases he
    | some node =>
      refine ⟨(path.map Text.encode, node), (mem_contents hfs).2 ⟨by simpa using hpath, hnode⟩, ?_⟩
      rw [hnode] at he
      rwa [List.nil_append, map_lossy_encode]

theorem listing_archiveEntries (hfs : fs.WellFormed) (hnames : fs.Portable l) :
    Listing fs l [] (fs.archiveEntries l) := by
  obtain ⟨depth, hdepth⟩ := exists_depth fs l
  rw [archiveEntries_eq hfs hnames]
  exact listing_entriesFrom hfs hnames hdepth []

theorem Portable.of_same (h : fs.Portable l)
    (hsame : ∀ rel, rel ≠ [] → fs'.get? (l' ++ rel) = fs.get? (l ++ rel)) : fs'.Portable l' := by
  rintro m n ⟨rel, rfl⟩ hthere
  rw [List.append_assoc, hsame _ (by simp), ← List.append_assoc] at hthere
  exact h (l ++ rel) n (List.prefix_append l rel) hthere

end FileSystem

end ReleaseTrain
