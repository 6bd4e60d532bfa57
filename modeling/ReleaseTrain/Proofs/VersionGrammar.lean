import ReleaseTrain.Image.Reference
import ReleaseTrain.Version

namespace ReleaseTrain

namespace Text

variable {sep c : Char} {cs ds : List Char}

theorem pieces_cons_of_ne (h : c ≠ sep) (cs : List Char) :
    ∃ p ps, pieces sep cs = p :: ps ∧ pieces sep (c :: cs) = (c :: p) :: ps := by
  obtain ⟨p, ps, hps⟩ := List.exists_cons_of_ne_nil (pieces_ne_nil sep cs)
  refine ⟨p, ps, hps, ?_⟩
  rw [pieces, if_neg h, hps]

theorem pieces_append (sep : Char) (cs ds : List Char) :
    pieces sep (cs ++ sep :: ds) = pieces sep cs ++ pieces sep ds := by
  induction cs with
  | nil => exact if_pos rfl
  | cons c cs ih =>
    by_cases hc : c = sep
    · rw [List.cons_append, pieces, if_pos hc, ih, pieces, if_pos hc]
      rfl
    · obtain ⟨p, ps, hps⟩ := List.exists_cons_of_ne_nil (pieces_ne_nil sep cs)
      rw [List.cons_append, pieces, if_neg hc, ih, pieces, if_neg hc, hps]
      rfl

theorem pieces_of_notMem (h : sep ∉ cs) : pieces sep cs = [cs] := by
  induction cs with
  | nil => rfl
  | cons c cs ih =>
    have hc : c ≠ sep := fun hc ↦ h (hc ▸ List.mem_cons_self)
    have htail := ih fun hmem ↦ h (List.mem_cons_of_mem c hmem)
    rw [pieces, if_neg hc, htail]

theorem pieces_append_sep (h : sep ∉ cs) (ds : List Char) :
    pieces sep (cs ++ sep :: ds) = cs :: pieces sep ds := by
  rw [pieces_append, pieces_of_notMem h]
  rfl

theorem exists_piece_of_mem (hc : c ∈ cs) (hsep : c ≠ sep) : ∃ p ∈ pieces sep cs, c ∈ p := by
  induction cs with
  | nil => cases hc
  | cons d cs ih =>
    by_cases hd : d = sep
    · have hmem : c ∈ cs := (List.mem_cons.1 hc).resolve_left fun h ↦ hsep (h.trans hd)
      obtain ⟨p, hp, hcp⟩ := ih hmem
      rw [pieces, if_pos hd]
      exact ⟨p, List.mem_cons_of_mem _ hp, hcp⟩
    · obtain ⟨q, qs, hqs, hpieces⟩ := pieces_cons_of_ne hd cs
      rw [hpieces]
      rcases List.mem_cons.1 hc with rfl | hmem
      · exact ⟨c :: q, List.mem_cons_self, List.mem_cons_self⟩
      obtain ⟨p, hp, hcp⟩ := ih hmem
      rw [hqs] at hp
      rcases List.mem_cons.1 hp with rfl | hp
      · exact ⟨d :: p, List.mem_cons_self, List.mem_cons_of_mem d hcp⟩
      · exact ⟨p, List.mem_cons_of_mem _ hp, hcp⟩

end Text

namespace Version

/-- A run of digits, at least one. -/
def IsNumber (cs : List Char) : Prop := cs ≠ [] ∧ cs.all Char.isDigit = true

theorem IsNumber.notMem {cs : List Char} (h : IsNumber cs) {c : Char} (hc : c.isDigit = false) :
    c ∉ cs := by
  intro hmem
  have hdigit := List.all_eq_true.1 h.2 c hmem
  rw [hc] at hdigit
  cases hdigit

/-- Three numbers, and a prerelease that is not empty if there is one. -/
structure WellFormed (v : Version) : Prop where
  major : IsNumber v.major.toList
  minor : IsNumber v.minor.toList
  patch : IsNumber v.patch.toList
  prerelease : ∀ p, v.prerelease = some p → p ≠ "" ∧ p.toList.all isPrereleaseChar = true

theorem number?_eq_some {cs ds rest : List Char} (h : number? cs = some (ds, rest)) :
    IsNumber ds ∧ cs = ds ++ rest := by
  unfold number? at h
  have hall : (cs.takeWhile Char.isDigit).all Char.isDigit = true := List.all_takeWhile
  have happend : cs.takeWhile Char.isDigit ++ cs.dropWhile Char.isDigit = cs :=
    List.takeWhile_append_dropWhile
  cases htake : cs.takeWhile Char.isDigit with
  | nil => simp [htake] at h
  | cons e es =>
    simp only [htake, Option.some.injEq, Prod.mk.injEq] at h
    obtain ⟨rfl, rfl⟩ := h
    rw [htake] at hall happend
    exact ⟨⟨List.cons_ne_nil e es, hall⟩, happend.symm⟩

theorem suffix?_eq_some {cs : List Char} {prerelease : Option (List Char)}
    (h : suffix? cs = some prerelease) :
    prerelease = none ∧ cs = [] ∨
      ∃ p, prerelease = some p ∧ cs = '-' :: p ∧ p ≠ [] ∧ p.all isPrereleaseChar = true := by
  unfold suffix? at h
  split at h
  · simp only [Option.some.injEq] at h
    exact .inl ⟨h.symm, rfl⟩
  · next c cs =>
    split at h
    · next hall =>
      simp only [Option.some.injEq] at h
      exact .inr ⟨c :: cs, h.symm, rfl, List.cons_ne_nil c cs, hall⟩
    · cases h
  · cases h

theorem ofChars?_eq_some {cs : List Char} {v : Version} (h : ofChars? cs = some v) :
    v.WellFormed ∧ v.text.toList = cs := by
  unfold ofChars? at h
  simp only [Option.bind_eq_bind, Option.bind_eq_some_iff, Option.pure_def, Option.some.injEq,
    Prod.exists] at h
  obtain ⟨a, cs₁, ha, cs₂, hdot, b, cs₃, hb, cs₄, hdot', c, cs₅, hc, prerelease, hsuffix, rfl⟩ := h
  obtain ⟨hmajor, rfl⟩ := number?_eq_some ha
  obtain rfl := Text.after?_eq_some_iff.1 hdot
  obtain ⟨hminor, rfl⟩ := number?_eq_some hb
  obtain rfl := Text.after?_eq_some_iff.1 hdot'
  obtain ⟨hpatch, rfl⟩ := number?_eq_some hc
  have hwell {q : Option (List Char)}
      (hq : ∀ p, q = some p → p ≠ [] ∧ p.all isPrereleaseChar = true) :
      WellFormed ⟨.ofList a, .ofList b, .ofList c, q.map .ofList⟩ := by
    refine ⟨by simpa using hmajor, by simpa using hminor, by simpa using hpatch, ?_⟩
    intro p hp
    obtain ⟨chars, rfl, rfl⟩ := Option.map_eq_some_iff.1 hp
    obtain ⟨hne, hall⟩ := hq chars rfl
    exact ⟨by simpa using hne, by simpa using hall⟩
  rcases suffix?_eq_some hsuffix with ⟨rfl, rfl⟩ | ⟨p, rfl, rfl, hne, hall⟩
  · refine ⟨hwell (by simp), ?_⟩
    simp [text, core, String.toList_append]
  · refine ⟨hwell ?_, ?_⟩
    · intro p' hp'
      cases hp'
      exact ⟨hne, hall⟩
    · simp [text, core, String.toList_append]

theorem parse_eq_ok {input : String} {v : Version} (h : parse input = .ok v) :
    v.WellFormed ∧ v.text = input := by
  unfold parse at h
  cases hchars : ofChars? input.toList with
  | none => simp [hchars] at h
  | some v' =>
    simp only [hchars, Except.ok.injEq] at h
    subst h
    obtain ⟨hwell, htext⟩ := ofChars?_eq_some hchars
    exact ⟨hwell, String.toList_injective htext⟩

theorem toList_core (v : Version) :
    v.core.toList = v.major.toList ++ '.' :: (v.minor.toList ++ '.' :: v.patch.toList) := by
  simp [core, String.toList_append]

theorem isProductionTag_iff {tag : String} (h : Text.after? ['v'] tag.toList = none) :
    isProductionTag tag = true ↔ (Text.pieces '.' tag.toList).length = 3 ∧
      ∀ n ∈ Text.pieces '.' tag.toList, IsNumber n := by
  unfold isProductionTag IsNumber
  dsimp only
  rw [h]
  simp

theorem WellFormed.after?_text {v : Version} (h : v.WellFormed) :
    Text.after? ['v'] v.text.toList = none := by
  have hbegin : ∃ rest, v.text.toList = v.major.toList ++ rest := by
    cases hp : v.prerelease with
    | none =>
      refine ⟨'.' :: (v.minor.toList ++ '.' :: v.patch.toList), ?_⟩
      rw [text, hp]
      exact v.toList_core
    | some p =>
      refine ⟨'.' :: (v.minor.toList ++ '.' :: (v.patch.toList ++ '-' :: p.toList)), ?_⟩
      rw [text, hp]
      simp [String.toList_append, toList_core]
  obtain ⟨rest, hrest⟩ := hbegin
  obtain ⟨d, ds, hd⟩ := List.exists_cons_of_ne_nil h.major.1
  cases hafter : Text.after? ['v'] v.text.toList with
  | none => rfl
  | some after =>
    have hcons := Text.after?_eq_some_iff.1 hafter
    rw [hrest, hd] at hcons
    obtain ⟨rfl, -⟩ := List.cons.inj hcons
    have hmem : 'v' ∈ v.major.toList := hd ▸ List.mem_cons_self
    exact absurd hmem (h.major.notMem (by decide))

theorem isProductionTag_text {v : Version} (h : v.WellFormed) :
    isProductionTag v.text = true ↔ v.prerelease = none := by
  rw [isProductionTag_iff h.after?_text]
  cases hp : v.prerelease with
  | none =>
    have hdot : Char.isDigit '.' = false := by decide
    have hpieces : Text.pieces '.' v.text.toList =
        [v.major.toList, v.minor.toList, v.patch.toList] := by
      rw [text, hp]
      dsimp only
      rw [toList_core, Text.pieces_append_sep (h.major.notMem hdot),
        Text.pieces_append_sep (h.minor.notMem hdot), Text.pieces_of_notMem (h.patch.notMem hdot)]
    rw [hpieces]
    simp [h.major, h.minor, h.patch]
  | some p =>
    have hdash : '-' ∈ v.text.toList := by
      rw [text, hp]
      simp [String.toList_append]
    -- The dash is part of a piece, and no number has a dash in it.
    obtain ⟨n, hn, hmem⟩ := Text.exists_piece_of_mem hdash (show '-' ≠ '.' by decide)
    constructor
    · intro hnumbers
      exact absurd hmem ((hnumbers.2 n hn).notMem (by decide))
    · intro hnone
      cases hnone

end Version

end ReleaseTrain
