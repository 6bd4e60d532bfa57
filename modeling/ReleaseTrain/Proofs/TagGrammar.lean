import ReleaseTrain.Proofs.Promotion
import ReleaseTrain.Proofs.VersionReading

namespace ReleaseTrain

open Version

theorem Text.intercalate_pieces (sep : Char) (cs : List Char) :
    [sep].intercalate (pieces sep cs) = cs := by
  induction cs with
  | nil => rfl
  | cons c cs ih =>
    obtain ⟨p, ps, hps⟩ := List.exists_cons_of_ne_nil (pieces_ne_nil sep cs)
    rw [hps] at ih
    by_cases hc : c = sep
    · rw [pieces, if_pos hc, hps, List.intercalate_cons_cons, ih, hc]
      rfl
    · rw [pieces, if_neg hc, hps]
      cases ps with
      | nil => simpa using ih
      | cons q qs => simpa [List.intercalate_cons_cons] using ih

def bareTag (tag : String) : String :=
  match tag.toList with
  | 'v' :: cs => .ofList cs
  | _ => tag

theorem toList_bareTag (tag : String) :
    (bareTag tag).toList = (Text.after? ['v'] tag.toList).getD tag.toList := by
  unfold bareTag
  split
  · next cs hcs => simp [hcs, Text.after?]
  · next hno =>
    cases hafter : Text.after? ['v'] tag.toList with
    | none => rfl
    | some rest => exact absurd (Text.after?_eq_some_iff.1 hafter) (hno rest)

theorem bareTag_v (s : String) : bareTag ("v" ++ s) = s := by
  simp [bareTag, String.toList_append]

theorem bareTag_text {v : Version} (h : v.WellFormed) : bareTag v.text = v.text := by
  apply String.toList_injective
  rw [toList_bareTag, h.after?_text]
  rfl

def ThreeNumbers (s : String) : Prop :=
  (Text.pieces '.' s.toList).length = 3 ∧ ∀ n ∈ Text.pieces '.' s.toList, IsNumber n

theorem isProductionTag_iff_bareTag {tag : String} :
    isProductionTag tag = true ↔ ThreeNumbers (bareTag tag) := by
  unfold isProductionTag ThreeNumbers IsNumber
  rw [toList_bareTag]
  simp

theorem threeNumbers_iff {s : String} :
    ThreeNumbers s ↔ ∃ v, parse s = .ok v ∧ v.prerelease = none := by
  constructor
  · rintro ⟨hlength, hnumbers⟩
    obtain ⟨a, b, c, hpieces⟩ := List.length_eq_three.1 hlength
    have hs := Text.intercalate_pieces '.' s.toList
    rw [hpieces] at hs hnumbers
    have hwell : WellFormed ⟨.ofList a, .ofList b, .ofList c, none⟩ := by
      refine ⟨?_, ?_, ?_, by simp⟩ <;> rw [String.toList_ofList] <;> apply hnumbers <;> simp
    refine ⟨_, parse_eq_ok_iff.2 (spells_iff.2 ⟨hwell, ?_⟩), rfl⟩
    apply String.toList_injective
    rw [← hs]
    simp [text, core, String.toList_append, List.intercalate]
  · rintro ⟨v, hv, hrelease⟩
    obtain ⟨hwell, rfl⟩ := parse_eq_ok hv
    exact (isProductionTag_iff hwell.after?_text).1 ((isProductionTag_text hwell).2 hrelease)

theorem dash_mem_text_iff {v : Version} (h : v.WellFormed) :
    '-' ∈ v.text.toList ↔ v.prerelease ≠ none := by
  unfold text
  cases hp : v.prerelease with
  | none =>
    have hdash : '-' ∉ v.core.toList := fun hmem ↦ absurd (h.mem_core hmem) (by decide)
    simpa using hdash
  | some p => simp [String.toList_append]

namespace ImageReference

theorem isSome_latestAlias (r : ImageReference) :
    r.latestAlias.isSome = true ↔ isProductionTag r.tag = true := by
  cases h : isProductionTag r.tag with
  | true => simp [latestAlias_of_production h]
  | false => simp [latestAlias_of_not_production h]

/-- A production tag, its `v` set aside, is a version without prerelease, that is one whose file
version is the same text with a zero added. So the image of a version has a second reference exactly
if there is no dash in the version, and a `v` before it makes no difference. The second reference
is another one of the same repository, and it has no such reference itself. -/
theorem tag_grammar :
    (∀ tag, isProductionTag tag = true ↔
        ∃ v, parse (bareTag tag) = .ok v ∧ v.prerelease = none) ∧
      (∀ tag, isProductionTag tag = true ↔
        ∃ v, parse (bareTag tag) = .ok v ∧ v.fileVersion = bareTag tag ++ ".0") ∧
      (∀ s v, parse s = .ok v →
        (∀ i : ImagePlan, i.tag = none →
          ((i.reference v).latestAlias.isSome = true ↔ '-' ∉ s.toList)) ∧
        isProductionTag ("v" ++ s) = isProductionTag s) ∧
      ∀ r latest : ImageReference, r.latestAlias = some latest →
        latest.registry = r.registry ∧ latest.name = r.name ∧
          latest.registryHost = r.registryHost ∧ latest ≠ r ∧ latest.latestAlias = none := by
  have hproduction {tag : String} : isProductionTag tag = true ↔
      ∃ v, parse (bareTag tag) = .ok v ∧ v.prerelease = none :=
    isProductionTag_iff_bareTag.trans threeNumbers_iff
  refine ⟨fun _ ↦ hproduction, fun tag ↦ hproduction.trans ?_, ?_, ?_⟩
  · refine exists_congr fun v ↦ and_congr_right fun hv ↦ ?_
    rw [← (parse_eq_ok hv).2]
    exact fileVersion_eq_iff.symm
  · intro s v hv
    obtain ⟨hwell, rfl⟩ := parse_eq_ok hv
    constructor
    · intro i hi
      have htag : (i.reference v).tag = v.text := congrArg (·.getD v.text) hi
      rw [isSome_latestAlias, htag, isProductionTag_text hwell, dash_mem_text_iff hwell, not_not]
    · rw [Bool.eq_iff_iff, isProductionTag_iff_bareTag, isProductionTag_iff_bareTag, bareTag_v,
        bareTag_text hwell]
  · intro r latest hlatest
    obtain ⟨hr, rfl⟩ := latestAlias_eq_some.1 hlatest
    refine ⟨rfl, rfl, rfl, fun hsame ↦ ?_, latestAlias_of_not_production isProductionTag_latestTag⟩
    have htag : latestTag = r.tag := congrArg ImageReference.tag hsame
    rw [← htag, isProductionTag_latestTag] at hr
    cases hr

end ImageReference

end ReleaseTrain
