import ReleaseTrain.Proofs.ExecutablePlace

namespace ReleaseTrain

namespace Path

def lexicalStep (names : List (List Char)) (piece : List Char) : List (List Char) :=
  if piece = [] ∨ piece = ['.'] then names
  else if piece = ['.', '.'] then names.dropLast
  else names ++ [piece]

/-- The names below the root that a path leads to if it is read from there. -/
def lexicalNames (p : Path) : List (List Char) :=
  (Text.pieces '/' p.text.toList).foldl lexicalStep []

/-- The path is from the root and has no `.` and no `..` in it. -/
structure Normal (p : Path) : Prop where
  absolute : p.isAbsolute = true
  no_current : .current ∉ p.components
  no_parent : .parent ∉ p.components

def rooted (names : List (List Char)) : List Component := .root :: names.map .name

variable {p q base : Path} {names : List (List Char)} {pieces : List (List Char)}

theorem componentsOfPieces_cons (piece : List Char) (pieces : List (List Char)) :
    componentsOfPieces (piece :: pieces) =
      (if piece = [] ∨ piece = ['.'] then []
        else if piece = ['.', '.'] then [.parent] else [.name piece]) ++
        componentsOfPieces pieces := by
  unfold componentsOfPieces
  rw [List.filterMap_cons]
  split_ifs <;> rfl

theorem climb_rooted (names : List (List Char)) : climb (rooted names) = rooted names.dropLast := by
  unfold climb rooted
  cases names with
  | nil => rfl
  | cons name names => simp [List.map_dropLast]

theorem foldl_resolveStep_rooted (pieces names : List (List Char)) :
    (componentsOfPieces pieces).foldl resolveStep (rooted names) =
      rooted (pieces.foldl lexicalStep names) := by
  induction pieces generalizing names with
  | nil => rfl
  | cons piece pieces ih =>
    rw [componentsOfPieces_cons, List.foldl_append, List.foldl_cons, ← ih]
    congr 1
    unfold lexicalStep
    split_ifs
    · rfl
    · exact climb_rooted names
    · simp [rooted, resolveStep]

theorem rooted_foldl (h : .parent ∉ componentsOfPieces pieces) (names : List (List Char)) :
    rooted (pieces.foldl lexicalStep names) = rooted names ++ componentsOfPieces pieces := by
  induction pieces generalizing names with
  | nil => exact (List.append_nil _).symm
  | cons piece pieces ih =>
    rw [componentsOfPieces_cons, List.mem_append, not_or] at h
    rw [List.foldl_cons, ih h.2, componentsOfPieces_cons, ← List.append_assoc]
    congr 1
    unfold lexicalStep
    split_ifs with hnone hup
    · exact (List.append_nil _).symm
    · simp [hup] at h
    · simp [rooted]

theorem Normal.components_eq (h : Normal p) : p.components = rooted p.lexicalNames := by
  have hparent := h.no_parent
  rw [components_of_isAbsolute h.absolute] at hparent ⊢
  exact (rooted_foldl (fun hmem ↦ hparent (List.mem_cons_of_mem _ hmem)) []).symm

theorem normal_of_components (h : p.components = rooted names) : Normal p where
  absolute := by rw [← head?_components, h]; rfl
  no_current := by simp [h, rooted]
  no_parent := by simp [h, rooted]

theorem componentsOfPieces_filter (pieces : List (List Char)) :
    componentsOfPieces (pieces.filter fun p ↦ p ≠ [] ∧ p ≠ ['.']) = componentsOfPieces pieces := by
  induction pieces with
  | nil => rfl
  | cons piece pieces ih =>
    rw [componentsOfPieces_cons, ← ih]
    by_cases hnone : piece = [] ∨ piece = ['.']
    · rw [if_pos hnone, List.filter_cons_of_neg (by simpa [← not_or] using hnone), List.nil_append]
    · rw [List.filter_cons_of_pos (by simpa [← not_or] using hnone), componentsOfPieces_cons]

theorem componentsOfPieces_of_proper (h : Proper (rooted names)) :
    componentsOfPieces names = names.map .name := by
  induction names with
  | nil => rfl
  | cons name names ih =>
    obtain ⟨hne, hhere, hup, -⟩ := h name (by simp [rooted])
    have htail : Proper (rooted names) := by
      intro t ht
      refine h t ?_
      simp only [rooted, List.map_cons, List.mem_cons] at ht ⊢
      exact ht.imp_right .inr
    rw [componentsOfPieces_cons, if_neg (not_or.2 ⟨hne, hhere⟩), if_neg hup, ih htail]
    rfl

theorem components_ofComponents (h : Proper (rooted names)) :
    (ofComponents (rooted names)).components = rooted names := by
  have habsolute : (ofComponents (rooted names)).isAbsolute = true :=
    (isAbsolute_ofComponents h).2 rfl
  have hsteps : (rooted names).filterMap Component.step? = names := by
    change (names.map Component.name).filterMap _ = names
    rw [List.filterMap_map]
    exact List.filterMap_some
  rw [components_of_isAbsolute habsolute, ofComponents, String.toList_ofList, added,
    ← componentsOfPieces_filter, filter_pieces_charsOfComponents h, hsteps,
    componentsOfPieces_of_proper h]
  rfl

theorem Normal.parent? (h : Normal base) :
    (base.parent? = none ∧ base.components = rooted []) ∨
      ∃ up, base.parent? = some up ∧ up.components = climb base.components := by
  have hproper := base.proper_components
  have hcomponents := h.components_eq
  rw [hcomponents] at hproper
  unfold Path.parent?
  rw [hcomponents]
  rcases List.eq_nil_or_concat base.lexicalNames with hnil | ⟨init, name, hlast⟩
  · rw [hnil]
    exact .inl ⟨rfl, rfl⟩
  · rw [List.concat_eq_append] at hlast
    have hrooted : rooted base.lexicalNames = rooted init ++ [.name name] := by
      simp [rooted, hlast]
    have hinit : Proper (rooted init) :=
      fun t ht ↦ hproper t (hrooted ▸ List.mem_append_left _ ht)
    have hclimb : climb (rooted base.lexicalNames) = rooted init := by
      rw [climb_rooted, hlast, List.dropLast_concat]
    rw [hclimb, hrooted, List.getLast?_concat, List.dropLast_concat]
    exact .inr ⟨_, rfl, components_ofComponents hinit⟩

theorem foldl_resolveStart (h : Normal base) (hp : p.isAbsolute = false) :
    (resolveStart p.components base).2.foldl resolveStep (resolveStart p.components base).1 =
      (added p.text.toList).foldl resolveStep base.components := by
  obtain ⟨cs, hcs, ⟨habsolute, -⟩ | ⟨-, rfl | rfl⟩⟩ := p.components_eq
  · rw [hp] at habsolute
    cases habsolute
  · rw [hcs]
    rfl
  · rw [List.nil_append] at hcs
    rw [hcs]
    change _ = (componentsOfPieces (Text.pieces '/' p.text.toList)).foldl resolveStep base.components
    have hroot := notMem_componentsOfPieces (.inl rfl) (Text.pieces '/' p.text.toList)
    cases hpieces : componentsOfPieces (Text.pieces '/' p.text.toList) with
    | nil => rfl
    | cons c cs =>
      cases c with
      | root =>
        rw [hpieces] at hroot
        exact absurd List.mem_cons_self hroot
      | current | name t => rfl
      | parent =>
        unfold resolveStart
        dsimp only
        rw [List.foldl_cons]
        change _ = cs.foldl resolveStep (climb base.components)
        obtain ⟨hnone, hcomponents⟩ | ⟨up, hup, hcomponents⟩ := h.parent?
        · rw [hnone, hcomponents, climb_rooted]
          dsimp only
          rw [if_pos h.absolute]
          rfl
        · rw [hup, ← hcomponents]

theorem absolute_of_ne_nil (h : p.components ≠ []) (base : Path) : p.absolute base =
    ofComponents ((resolveStart p.components base).2.foldl resolveStep
      (resolveStart p.components base).1) := by
  unfold absolute
  split
  · next hnil => exact absurd hnil h
  · rfl

theorem lexicalNames_join {right : String} (h : base.isAbsolute = true)
    (hright : (⟨right⟩ : Path).isAbsolute = false) : (base.join right).lexicalNames =
      (Text.pieces '/' right.toList).foldl lexicalStep base.lexicalNames := by
  obtain ⟨cs, htext, hcs⟩ := toList_join h hright
  have hbase : base.lexicalNames = (Text.pieces '/' cs).foldl lexicalStep [] := by
    unfold lexicalNames
    obtain hcs | hcs := hcs
    · rw [hcs]
    · rw [hcs, Text.pieces_append, List.foldl_append]
      rfl
  rw [hbase, lexicalNames, htext, Text.pieces_append, List.foldl_append]

theorem proper_lexicalNames (p : Path) : Proper (rooted p.lexicalNames) := by
  have hroot : Climbless (rooted []) := ⟨by simp [Proper, rooted], by simp [rooted]⟩
  have hadded : Proper (added p.text.toList) := by
    intro t ht
    obtain ⟨hmem, hne, hhere, hup⟩ := mem_componentsOfPieces ht
    exact ⟨hne, hhere, hup, notMem_of_mem_pieces hmem⟩
  rw [lexicalNames, ← foldl_resolveStep_rooted]
  exact (hroot.foldl_resolveStep hadded).proper

theorem absolute_eq_of_ne_nil (h : Normal base) (hp : p.components ≠ []) :
    p.absolute base = ofComponents (rooted (base.join p.text).lexicalNames) := by
  rw [absolute_of_ne_nil hp]
  congr 1
  cases habsolute : p.isAbsolute with
  | true =>
    rw [join_of_isAbsolute habsolute, components_of_isAbsolute habsolute]
    exact foldl_resolveStep_rooted _ []
  | false =>
    rw [foldl_resolveStart h habsolute, h.components_eq, lexicalNames_join h.absolute habsolute]
    exact foldl_resolveStep_rooted _ _

theorem absolute_eq_of_nil (h : p.components = []) (base : Path) : p.absolute base = base := by
  unfold absolute
  rw [h]

/-- The names that a path is resolved to are those that the joined text leads to. -/
theorem components_absolute (h : Normal base) (p : Path) :
    (p.absolute base).components = rooted (base.join p.text).lexicalNames := by
  by_cases hp : p.components = []
  · obtain ⟨cs, hcs, ⟨-, rfl⟩ | ⟨habsolute, -⟩⟩ := p.components_eq
    · rw [hp] at hcs
      cases hcs
    · have hnone : componentsOfPieces (Text.pieces '/' p.text.toList) = [] :=
        (List.append_eq_nil_iff.1 (hcs.symm.trans hp)).2
      rw [absolute_eq_of_nil hp, lexicalNames_join h.absolute habsolute,
        rooted_foldl (by simp [hnone]), hnone, List.append_nil, h.components_eq]
  · rw [absolute_eq_of_ne_nil h hp, components_ofComponents (proper_lexicalNames _)]

theorem absolute_of_normal (h : Normal p) (other : Path) :
    p.absolute other = ofComponents p.components := by
  have hne : p.components ≠ [] := by simp [h.components_eq, rooted]
  rw [absolute_of_ne_nil hne]
  congr 1
  calc (resolveStart p.components other).2.foldl resolveStep (resolveStart p.components other).1
      = (added p.text.toList).foldl resolveStep (rooted []) := by
        rw [components_of_isAbsolute h.absolute]
        rfl
    _ = rooted p.lexicalNames := foldl_resolveStep_rooted _ []
    _ = p.components := h.components_eq.symm

/-- What resolving against a base comes to: a normal path, the one that the joined text leads to,
which stays the same however often it is resolved. -/
structure Resolved (base written p : Path) : Prop where
  normal : Normal p
  lexical : p.components = .root :: (base.join written.text).lexicalNames.map .name
  settled : ∀ other, (p.absolute other).components = p.components
  /-- An empty path comes to the base as that is written. -/
  settled_text : written.components ≠ [] ∨ base = ofComponents base.components →
    ∀ other, p.absolute other = p

theorem resolved_absolute (h : Normal base) (p : Path) : Resolved base p (p.absolute base) := by
  have hcomponents := components_absolute h p
  have hnormal := normal_of_components hcomponents
  refine ⟨hnormal, hcomponents, fun other ↦ ?_, fun hp other ↦ ?_⟩
  · rw [absolute_of_normal hnormal, hcomponents, components_ofComponents (proper_lexicalNames _)]
  · rw [absolute_of_normal hnormal, hcomponents]
    by_cases hnil : p.components = []
    · rw [← hcomponents, absolute_eq_of_nil hnil]
      exact (hp.resolve_left (not_not.2 hnil)).symm
    · exact (absolute_eq_of_ne_nil h hnil).symm

end Path

end ReleaseTrain
