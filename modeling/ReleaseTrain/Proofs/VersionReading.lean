import ReleaseTrain.Proofs.AcceptedReference

namespace ReleaseTrain

theorem Text.codes_of_isAlphanum {c : Char} (h : c.isAlphanum = true) :
    (65 ≤ c.toNat ∧ c.toNat ≤ 90 ∨ 97 ≤ c.toNat ∧ c.toNat ≤ 122) ∨
      48 ≤ c.toNat ∧ c.toNat ≤ 57 := by
  delta Char.isAlphanum Char.isAlpha Char.isUpper Char.isLower Char.isDigit at h
  simpa [UInt32.le_iff_toNat_le] using h

namespace Version

/-- Letters, digits, dots and dashes, at least one. -/
def IsPrerelease (cs : List Char) : Prop :=
  cs ≠ [] ∧ ∀ c ∈ cs, c.isAlphanum = true ∨ c = '.' ∨ c = '-'

/-- The grammar of versions: three numbers with dots between them, and a prerelease behind a dash if
there is one. -/
inductive Spells : Version → String → Prop
  | release {major minor patch : String} : IsNumber major.toList → IsNumber minor.toList →
      IsNumber patch.toList →
      Spells ⟨major, minor, patch, none⟩ (major ++ "." ++ minor ++ "." ++ patch)
  | prerelease {major minor patch p : String} : IsNumber major.toList → IsNumber minor.toList →
      IsNumber patch.toList → IsPrerelease p.toList →
      Spells ⟨major, minor, patch, some p⟩ (major ++ "." ++ minor ++ "." ++ patch ++ "-" ++ p)

variable {v w : Version} {s : String} {cs ds rest : List Char}

theorem all_isPrereleaseChar_iff : cs.all isPrereleaseChar = true ↔
    ∀ c ∈ cs, c.isAlphanum = true ∨ c = '.' ∨ c = '-' := by
  simp [isPrereleaseChar, or_assoc]

theorem spells_iff : Spells v s ↔ v.WellFormed ∧ v.text = s := by
  constructor
  · intro h
    cases h with
    | release ha hb hc => exact ⟨⟨ha, hb, hc, by simp⟩, rfl⟩
    | prerelease ha hb hc hp =>
      refine ⟨⟨ha, hb, hc, ?_⟩, rfl⟩
      rintro _ ⟨rfl⟩
      exact ⟨fun hempty ↦ hp.1 (String.toList_eq_nil_iff.2 hempty), all_isPrereleaseChar_iff.2 hp.2⟩
  · rintro ⟨h, rfl⟩
    obtain ⟨a, b, c, prerelease⟩ := v
    cases prerelease with
    | none => exact .release h.major h.minor h.patch
    | some p =>
      obtain ⟨hne, hall⟩ := h.prerelease p rfl
      exact .prerelease h.major h.minor h.patch
        ⟨fun hnil ↦ hne (String.toList_eq_nil_iff.1 hnil), all_isPrereleaseChar_iff.1 hall⟩

/-- A number is read up to what is no digit. -/
theorem number?_append (h : IsNumber ds) (hrest : ∀ c, rest.head? = some c → c.isDigit = false) :
    number? (ds ++ rest) = some (ds, rest) := by
  have hall := List.all_eq_true.1 h.2
  have htake : rest.takeWhile Char.isDigit = [] ∧ rest.dropWhile Char.isDigit = rest := by
    cases rest with
    | nil => exact ⟨rfl, rfl⟩
    | cons c rest => simp [hrest c rfl]
  unfold number?
  rw [List.takeWhile_append_of_pos hall, List.dropWhile_append_of_pos hall, htake.1, htake.2,
    List.append_nil]
  cases ds with
  | nil => exact absurd rfl h.1
  | cons d ds => rfl

theorem suffix?_dash (hne : cs ≠ []) (hall : cs.all isPrereleaseChar = true) :
    suffix? ('-' :: cs) = some (some cs) := by
  obtain ⟨c, cs, rfl⟩ := List.exists_cons_of_ne_nil hne
  exact if_pos hall

theorem ofChars?_of_numbers {a b c : List Char} {prerelease : Option (List Char)}
    (ha : IsNumber a) (hb : IsNumber b) (hc : IsNumber c)
    (hrest : ∀ x, rest.head? = some x → x.isDigit = false) (hsuffix : suffix? rest = some prerelease) :
    ofChars? (a ++ '.' :: (b ++ '.' :: (c ++ rest))) =
      some ⟨.ofList a, .ofList b, .ofList c, prerelease.map .ofList⟩ := by
  have hdot : ∀ (cs : List Char) x, ('.' :: cs).head? = some x → x.isDigit = false := by
    rintro cs _ ⟨rfl⟩
    decide
  unfold ofChars?
  rw [number?_append ha (hdot _)]
  simp only [Option.bind_eq_bind, Option.bind_some, Text.after?, if_true, number?_append hb (hdot _),
    number?_append hc hrest, hsuffix, Option.pure_def]

/-- What the grammar spells is read as it was split. -/
theorem parse_text (h : v.WellFormed) : parse v.text = .ok v := by
  obtain ⟨a, b, c, prerelease⟩ := v
  have hread : ofChars? (text ⟨a, b, c, prerelease⟩).toList = some ⟨a, b, c, prerelease⟩ := by
    cases prerelease with
    | none =>
      have hchars := ofChars?_of_numbers h.major h.minor h.patch
        (show ∀ x, ([] : List Char).head? = some x → x.isDigit = false by simp) rfl
      simpa [text, core, String.toList_append] using hchars
    | some p =>
      obtain ⟨hne, hall⟩ := h.prerelease p rfl
      have hsuffix := suffix?_dash (fun hnil ↦ hne (String.toList_eq_nil_iff.1 hnil)) hall
      have hchars := ofChars?_of_numbers h.major h.minor h.patch
        (by rintro _ ⟨rfl⟩; decide) hsuffix
      simpa [text, core, String.toList_append] using hchars
  rw [parse, hread]

theorem parse_eq_ok_iff : parse s = .ok v ↔ Spells v s := by
  rw [spells_iff]
  constructor
  · exact parse_eq_ok
  · rintro ⟨h, rfl⟩
    exact parse_text h

theorem Spells.unique (h : Spells v s) (h' : Spells w s) : v = w := by
  rw [← parse_eq_ok_iff] at h h'
  exact Except.ok.inj (h.symm.trans h')

theorem parse_eq_error {e : ReleaseError} (h : parse s = .error e) : e = .invalidVersion s := by
  unfold parse at h
  split at h
  · cases h
  · exact (Except.error.inj h).symm

theorem parse_eq_error_iff : parse s = .error (.invalidVersion s) ↔ ¬∃ v, Spells v s := by
  simp only [← parse_eq_ok_iff]
  cases h : parse s with
  | ok v => simp
  | error e => simp [parse_eq_error h]

theorem split_fileVersion (h : v.WellFormed) :
    Text.split '.' v.fileVersion = [v.major, v.minor, v.patch, "0"] := by
  have hdot : Char.isDigit '.' = false := by decide
  have hchars : v.fileVersion.toList =
      v.major.toList ++ '.' :: (v.minor.toList ++ '.' :: (v.patch.toList ++ '.' :: ['0'])) := by
    rw [fileVersion, String.toList_append, toList_core]
    simp
  unfold Text.split
  rw [hchars, Text.pieces_append_sep (h.major.notMem hdot), Text.pieces_append_sep
    (h.minor.notMem hdot), Text.pieces_append_sep (h.patch.notMem hdot)]
  simp [Text.pieces]

theorem fileVersion_eq_iff : v.fileVersion = v.text ++ ".0" ↔ v.prerelease = none := by
  unfold fileVersion text
  cases v.prerelease with
  | none => simp
  | some p =>
    have hlonger : v.core ≠ v.core ++ "-" ++ p := by
      intro h
      have hlength := congrArg String.length h
      rw [String.length_append, String.length_append, show "-".length = 1 from rfl] at hlength
      omega
    simpa [String.append_left_inj] using hlonger

theorem WellFormed.mem_core (h : v.WellFormed) {c : Char} (hc : c ∈ v.core.toList) :
    c.isDigit = true ∨ c = '.' := by
  have hdigit {cs : List Char} (hcs : IsNumber cs) (hmem : c ∈ cs) : c.isDigit = true :=
    List.all_eq_true.1 hcs.2 c hmem
  rw [toList_core] at hc
  simp only [List.mem_append, List.mem_cons] at hc
  rcases hc with hc | hc | hc | hc | hc
  · exact .inl (hdigit h.major hc)
  · exact .inr hc
  · exact .inl (hdigit h.minor hc)
  · exact .inr hc
  · exact .inl (hdigit h.patch hc)

theorem Spells.mem (h : Spells v s) {c : Char} (hc : c ∈ s.toList) :
    c.isAlphanum = true ∨ c = '.' ∨ c = '-' := by
  obtain ⟨hwell, rfl⟩ := spells_iff.1 h
  have hcore (hmem : c ∈ v.core.toList) : c.isAlphanum = true ∨ c = '.' ∨ c = '-' :=
    (hwell.mem_core hmem).imp (fun hdigit ↦ by simp [Char.isAlphanum, hdigit]) .inl
  unfold text at hc
  split at hc
  · exact hcore hc
  next p hp =>
    rw [String.toList_append, String.toList_append, List.mem_append, List.mem_append] at hc
    rcases hc with (hc | hc) | hc
    · exact hcore hc
    · exact .inr (.inr (List.mem_singleton.1 hc))
    · exact all_isPrereleaseChar_iff.1 (hwell.prerelease p hp).2 c hc

theorem Spells.not_blank (h : Spells v s) {c : Char} (hc : c ∈ s.toList) :
    Text.isBlank c = false ∧ c.toNat < 128 := by
  have hcode : c.toNat = 45 ∨ c.toNat = 46 ∨ 48 ≤ c.toNat ∧ c.toNat ≤ 57 ∨
      65 ≤ c.toNat ∧ c.toNat ≤ 90 ∨ 97 ≤ c.toNat ∧ c.toNat ≤ 122 := by
    rcases h.mem hc with halpha | rfl | rfl
    · have := Text.codes_of_isAlphanum halpha
      omega
    · decide
    · decide
  refine ⟨?_, by omega⟩
  simp only [Text.isBlank, Text.blankRanges, List.any_cons, List.any_nil, Bool.or_false,
    Bool.or_eq_false_iff, Bool.and_eq_false_iff, decide_eq_false_iff_not]
  omega

/-- A text is read as a version exactly if it is spelled so, and it is spelled in one way only. What
is read has the text unchanged, and a file version of four numbers, which is the text with a zero
added exactly if there is no prerelease. Any other text comes back in the refusal, and so does each
one with white space or a character beyond ASCII anywhere in it. -/
theorem version_grammar (s : String) :
    (∀ v, parse s = .ok v ↔ Spells v s) ∧
      (∀ v w, Spells v s → Spells w s → v = w) ∧
      (∀ v, parse s = .ok v →
        v.text = s ∧ v.fileVersion = v.major ++ "." ++ v.minor ++ "." ++ v.patch ++ ".0" ∧
          Text.split '.' v.fileVersion = [v.major, v.minor, v.patch, "0"] ∧
          (∀ n ∈ Text.split '.' v.fileVersion, IsNumber n.toList) ∧
          (v.fileVersion = s ++ ".0" ↔ v.prerelease = none)) ∧
      (parse s = .error (.invalidVersion s) ↔ ¬∃ v, Spells v s) ∧
      ∀ c ∈ s.toList, Text.isBlank c = true ∨ 128 ≤ c.toNat →
        parse s = .error (.invalidVersion s) := by
  refine ⟨fun v ↦ parse_eq_ok_iff, fun v w ↦ Spells.unique, ?_, parse_eq_error_iff, ?_⟩
  · intro v hv
    obtain ⟨hwell, rfl⟩ := parse_eq_ok hv
    refine ⟨rfl, rfl, split_fileVersion hwell, ?_, fileVersion_eq_iff⟩
    rw [split_fileVersion hwell]
    have hzero : IsNumber "0".toList := ⟨by decide, by decide⟩
    simpa using ⟨hwell.major, hwell.minor, hwell.patch, hzero⟩
  · intro c hc hstrange
    refine parse_eq_error_iff.2 fun ⟨v, hv⟩ ↦ ?_
    obtain ⟨hblank, hascii⟩ := hv.not_blank hc
    rw [hblank] at hstrange
    rcases hstrange with h | h
    · cases h
    · exact absurd h (Nat.not_le.2 hascii)

end Version

end ReleaseTrain
