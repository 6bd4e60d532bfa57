import ReleaseTrain.FileSystem.Operations
import ReleaseTrain.Proofs.VersionGrammar

namespace ReleaseTrain

open Text (Bytes)

namespace Text

/-- The bytes of some characters. -/
def encodeChars (cs : List Char) : Bytes := cs.flatMap String.utf8EncodeChar

theorem encode_append (s t : String) : encode (s ++ t) = encode s ++ encode t := by
  simp [encode]

theorem encode_ofList (cs : List Char) : encode (.ofList cs) = encodeChars cs := by
  simp [encode, encodeChars, List.utf8Encode, List.data_toByteArray]

theorem encode_eq (s : String) : encode s = encodeChars s.toList := by
  rw [← encode_ofList, String.ofList_toList]

theorem encode_inj {s t : String} : encode s = encode t ↔ s = t := by
  constructor
  · intro h
    exact String.toByteArray_inj.1 (ByteArray.ext (Array.toList_inj.1 h))
  · rintro rfl
    rfl

@[simp] theorem encodeChars_nil : encodeChars [] = [] := rfl

@[simp] theorem encodeChars_append (cs ds : List Char) :
    encodeChars (cs ++ ds) = encodeChars cs ++ encodeChars ds := List.flatMap_append

theorem encodeChars_cons (c : Char) (cs : List Char) :
    encodeChars (c :: cs) = String.utf8EncodeChar c ++ encodeChars cs := rfl

theorem encodeChars_eq_nil {cs : List Char} : encodeChars cs = [] ↔ cs = [] := by
  cases cs with
  | nil => simp
  | cons c cs => simp [encodeChars_cons]

theorem encodeChars_inj {cs ds : List Char} : encodeChars cs = encodeChars ds ↔ cs = ds := by
  rw [← encode_ofList, ← encode_ofList, encode_inj, String.ofList_inj]

theorem mem_utf8EncodeChar {b : UInt8} {c : Char} (hb : b.toNat < 128)
    (h : b ∈ String.utf8EncodeChar c) : String.utf8EncodeChar c = [b] ∧ c.toNat = b.toNat := by
  have hne (n : Nat) (hn : 128 ≤ n) (hn' : n < 256) : b ≠ .ofNat n := by
    rintro rfl
    rw [UInt8.toNat_ofNat'] at hb
    omega
  unfold String.utf8EncodeChar at h ⊢
  dsimp only at h ⊢
  split at h
  · next hv =>
    rw [if_pos hv]
    obtain rfl := List.mem_singleton.1 h
    refine ⟨rfl, ?_⟩
    have hlt : c.val.toNat % 2 ^ 8 = c.val.toNat := Nat.mod_eq_of_lt (by omega)
    rw [UInt8.toNat_ofNat', hlt]
    rfl
  -- Every byte of a longer code has its highest bit set.
  exfalso
  split at h
  · simp only [List.mem_cons, List.not_mem_nil, or_false] at h
    obtain h | h := h <;> exact hne _ (by omega) (by omega) h
  split at h
  · simp only [List.mem_cons, List.not_mem_nil, or_false] at h
    obtain h | h | h := h <;> exact hne _ (by omega) (by omega) h
  · simp only [List.mem_cons, List.not_mem_nil, or_false] at h
    obtain h | h | h | h := h <;> exact hne _ (by omega) (by omega) h

theorem separator_notMem_utf8EncodeChar {c : Char} (h : c ≠ '/') :
    FileSystem.separator ∉ String.utf8EncodeChar c :=
  fun hb ↦ h (Char.toNat_inj.1 (mem_utf8EncodeChar (by decide) hb).2)

theorem separator_notMem_encodeChars {cs : List Char} (h : '/' ∉ cs) :
    FileSystem.separator ∉ encodeChars cs := by
  intro hmem
  obtain ⟨c, hc, hb⟩ := List.mem_flatMap.1 hmem
  exact separator_notMem_utf8EncodeChar (fun heq ↦ h (heq ▸ hc)) hb

end Text

namespace FileSystem

variable {bs cs : Bytes}

theorem names_ne_nil (bs : Bytes) : names bs ≠ [] := by
  cases bs with
  | nil => simp [names]
  | cons b bs =>
    unfold names
    split
    · simp
    · split <;> simp

theorem names_append_sep (bs cs : Bytes) :
    names (bs ++ separator :: cs) = names bs ++ names cs := by
  induction bs with
  | nil => simp [names]
  | cons b bs ih =>
    obtain ⟨n, ns, hns⟩ := List.exists_cons_of_ne_nil (names_ne_nil bs)
    by_cases hb : b = separator
    · rw [List.cons_append, names, if_pos hb, names, if_pos hb, ih, List.cons_append]
    · rw [List.cons_append, names, if_neg hb, names, if_neg hb, ih, hns]
      rfl

theorem names_of_notMem (h : separator ∉ bs) : names bs = [bs] := by
  induction bs with
  | nil => rfl
  | cons b bs ih =>
    have hb : b ≠ separator := fun hb ↦ h (hb ▸ List.mem_cons_self)
    rw [names, if_neg hb, ih fun hmem ↦ h (List.mem_cons_of_mem b hmem)]

theorem names_append (h : separator ∉ bs) (cs : Bytes) :
    ∃ n ns, names cs = n :: ns ∧ names (bs ++ cs) = (bs ++ n) :: ns := by
  obtain ⟨n, ns, hns⟩ := List.exists_cons_of_ne_nil (names_ne_nil cs)
  refine ⟨n, ns, hns, ?_⟩
  induction bs with
  | nil => exact hns
  | cons b bs ih =>
    have hb : b ≠ separator := fun hb ↦ h (hb ▸ List.mem_cons_self)
    rw [List.cons_append, names, if_neg hb, ih fun hmem ↦ h (List.mem_cons_of_mem b hmem)]
    rfl

/-- Cutting at separators and encoding may change places. -/
theorem names_encodeChars (cs : List Char) :
    names (Text.encodeChars cs) = (Text.pieces '/' cs).map Text.encodeChars := by
  induction cs with
  | nil => rfl
  | cons c cs ih =>
    rw [Text.encodeChars_cons]
    by_cases hc : c = '/'
    · subst hc
      rw [Text.pieces, if_pos rfl, List.map_cons, ← ih]
      exact names_append_sep [] (Text.encodeChars cs)
    · obtain ⟨p, ps, hps, hpieces⟩ := Text.pieces_cons_of_ne hc cs
      have hsep := Text.separator_notMem_utf8EncodeChar hc
      obtain ⟨n, ns, hns, hnames⟩ := names_append hsep (Text.encodeChars cs)
      rw [hnames, hpieces, List.map_cons]
      rw [ih, hps, List.map_cons] at hns
      obtain ⟨rfl, rfl⟩ := List.cons.inj hns
      rfl

theorem plainSteps_encodeChars (cs : List Char) :
    plainSteps (Text.encodeChars cs) =
      ((Text.pieces '/' cs).filter fun p ↦ p ≠ [] ∧ p ≠ ['.']).map Text.encodeChars := by
  have hhere (p : List Char) : Text.encodeChars p = stepHere ↔ p = ['.'] :=
    (Text.encodeChars_inj : _ = Text.encodeChars ['.'] ↔ _)
  unfold plainSteps Route.ofBytes
  dsimp only
  rw [names_encodeChars, List.filter_map, List.filter_map, List.filter_filter]
  congr 1
  refine List.filter_congr fun p _ ↦ ?_
  simp [Text.encodeChars_eq_nil, hhere, Bool.and_comm]

theorem stepUp_mem_iff : stepUp ∈ plainSteps bs ↔ stepUp ∈ (Route.ofBytes bs).steps := by
  simp [plainSteps, stepUp, stepHere]

end FileSystem

namespace Path

open FileSystem

variable {p q : Path}

theorem bytes_eq (p : Path) : p.bytes = Text.encodeChars p.text.toList := Text.encode_eq p.text

/-- The name that a component stands for, if it leads anywhere. -/
def Component.step? : Component → Option (List Char)
  | .root | .current => none
  | .parent => some ['.', '.']
  | .name t => some t

/-- The names among the components are as they come out of a text. -/
def Proper (cs : List Component) : Prop :=
  ∀ t, .name t ∈ cs → t ≠ [] ∧ t ≠ ['.'] ∧ t ≠ ['.', '.'] ∧ '/' ∉ t

theorem step?_componentsOfPieces (ps : List (List Char)) :
    (componentsOfPieces ps).filterMap Component.step? = ps.filter fun p ↦ p ≠ [] ∧ p ≠ ['.'] := by
  induction ps with
  | nil => rfl
  | cons p ps ih =>
    unfold componentsOfPieces at ih ⊢
    rw [List.filterMap_cons]
    by_cases hp : p = [] ∨ p = ['.']
    · rw [if_pos hp, List.filter_cons_of_neg (by simpa [← not_or] using hp)]
      exact ih
    rw [if_neg hp, List.filter_cons_of_pos (by simpa [← not_or] using hp)]
    by_cases hup : p = ['.', '.']
    · rw [if_pos hup, hup]
      exact congrArg _ ih
    · rw [if_neg hup]
      exact congrArg _ ih

theorem components_eq (p : Path) : ∃ cs, p.components = cs ++ componentsOfPieces
    (Text.pieces '/' p.text.toList) ∧ (p.isAbsolute = true ∧ cs = [.root] ∨
      p.isAbsolute = false ∧ (cs = [.current] ∨ cs = [])) := by
  unfold components
  dsimp only
  cases p.isAbsolute with
  | true => exact ⟨[.root], rfl, .inl ⟨rfl, rfl⟩⟩
  | false =>
    rw [if_neg Bool.false_ne_true]
    split
    · exact ⟨[.current], rfl, .inr ⟨rfl, .inl rfl⟩⟩
    · exact ⟨[], rfl, .inr ⟨rfl, .inr rfl⟩⟩

theorem plainSteps_bytes (p : Path) :
    plainSteps p.bytes = (p.components.filterMap Component.step?).map Text.encodeChars := by
  obtain ⟨cs, hcs, hkind⟩ := p.components_eq
  have hnone : cs.filterMap Component.step? = [] := by
    rcases hkind with ⟨-, rfl⟩ | ⟨-, rfl | rfl⟩ <;> rfl
  rw [hcs, List.filterMap_append, hnone, List.nil_append, step?_componentsOfPieces, bytes_eq,
    plainSteps_encodeChars]

theorem mem_componentsOfPieces {t : List Char} {ps : List (List Char)}
    (h : .name t ∈ componentsOfPieces ps) : t ∈ ps ∧ t ≠ [] ∧ t ≠ ['.'] ∧ t ≠ ['.', '.'] := by
  obtain ⟨p, hp, heq⟩ := List.mem_filterMap.1 h
  split at heq
  · cases heq
  · next hne =>
    split at heq
    · cases heq
    · next hup =>
      cases heq
      exact ⟨hp, (not_or.1 hne).1, (not_or.1 hne).2, hup⟩

theorem notMem_of_mem_pieces {sep : Char} {t cs : List Char} (h : t ∈ Text.pieces sep cs) :
    sep ∉ t := by
  induction cs generalizing t with
  | nil =>
    obtain rfl := List.mem_singleton.1 h
    exact List.not_mem_nil
  | cons c cs ih =>
    by_cases hc : c = sep
    · rw [Text.pieces, if_pos hc] at h
      rcases List.mem_cons.1 h with rfl | h
      · exact List.not_mem_nil
      · exact ih h
    · obtain ⟨p, ps, hps, hpieces⟩ := Text.pieces_cons_of_ne hc cs
      rw [hpieces] at h
      rw [hps] at ih
      rcases List.mem_cons.1 h with rfl | h
      · have hp := ih List.mem_cons_self
        simpa [hp] using Ne.symm hc
      · exact ih (List.mem_cons_of_mem p h)

theorem proper_components (p : Path) : Proper p.components := by
  obtain ⟨cs, hcs, hkind⟩ := p.components_eq
  intro t ht
  rw [hcs, List.mem_append] at ht
  have ht : .name t ∈ componentsOfPieces (Text.pieces '/' p.text.toList) :=
    ht.resolve_left (by rcases hkind with ⟨-, rfl⟩ | ⟨-, rfl | rfl⟩ <;> simp)
  obtain ⟨hmem, hne, hdot, hup⟩ := mem_componentsOfPieces ht
  exact ⟨hne, hdot, hup, notMem_of_mem_pieces hmem⟩

theorem charsOfComponents_cons {c d : Component} {cs : List Component} (hc : c ≠ .root) :
    charsOfComponents (c :: d :: cs) = c.toChars ++ '/' :: charsOfComponents (d :: cs) := by
  cases c with
  | root => exact absurd rfl hc
  | current | parent | name t => rfl

theorem filter_pieces_charsOfComponents {cs : List Component} (h : Proper cs) :
    ((Text.pieces '/' (charsOfComponents cs)).filter fun p ↦ p ≠ [] ∧ p ≠ ['.']) =
      cs.filterMap Component.step? := by
  induction cs with
  | nil => rfl
  | cons c cs ih =>
    have htail := ih fun t ht ↦ h t (List.mem_cons_of_mem c ht)
    -- What stands for one component is a piece of its own.
    have hchars : c ≠ .root → '/' ∉ c.toChars := by
      intro hc
      cases c with
      | root => exact absurd rfl hc
      | current | parent => decide
      | name t => exact (h t List.mem_cons_self).2.2.2
    have hhead : c ≠ .root →
        ([c.toChars].filter fun p ↦ p ≠ [] ∧ p ≠ ['.']) = c.step?.toList := by
      intro hc
      cases c with
      | root => exact absurd rfl hc
      | current | parent => decide
      | name t =>
        obtain ⟨hne, hdot, -⟩ := h t List.mem_cons_self
        exact List.filter_cons_of_pos (by simpa using ⟨hne, hdot⟩)
    have hsplit : (c :: cs).filterMap Component.step? =
        c.step?.toList ++ cs.filterMap Component.step? := by
      rw [List.filterMap_cons]
      cases c.step? <;> rfl
    rw [hsplit]
    by_cases hc : c = .root
    · subst hc
      cases cs with
      | nil => rfl
      | cons d cs => exact htail
    cases cs with
    | nil =>
      change ((Text.pieces '/' c.toChars).filter _) = _
      rw [Text.pieces_of_notMem (hchars hc), hhead hc]
      exact (List.append_nil _).symm
    | cons d cs =>
      rw [charsOfComponents_cons hc, Text.pieces_append_sep (hchars hc), ← htail, ← hhead hc]
      rw [← List.filter_append]
      rfl

theorem plainSteps_ofComponents {cs : List Component} (h : Proper cs) :
    plainSteps (ofComponents cs).bytes =
      (cs.filterMap Component.step?).map Text.encodeChars := by
  rw [bytes_eq, plainSteps_encodeChars, ofComponents, String.toList_ofList,
    filter_pieces_charsOfComponents h]

theorem fromRoot_bytes (p : Path) : (Route.ofBytes p.bytes).fromRoot = p.isAbsolute := by
  unfold Route.ofBytes isAbsolute
  rw [bytes_eq]
  cases p.text.toList with
  | nil => rfl
  | cons c cs =>
    rw [Text.encodeChars_cons]
    by_cases hc : c = '/'
    · subst hc
      rfl
    obtain ⟨b, bs, hbs⟩ := List.exists_cons_of_ne_nil (String.utf8EncodeChar_ne_nil (c := c))
    have hb : b ≠ separator := by
      rintro rfl
      exact Text.separator_notMem_utf8EncodeChar hc (hbs ▸ List.mem_cons_self)
    simp [hbs, hb, hc]

theorem isAbsolute_ofComponents {cs : List Component} (h : Proper cs) :
    (ofComponents cs).isAbsolute = true ↔ cs.head? = some .root := by
  unfold isAbsolute ofComponents
  rw [String.toList_ofList, beq_iff_eq]
  cases cs with
  | nil => simp [charsOfComponents]
  | cons c cs =>
    by_cases hc : c = .root
    · subst hc
      cases cs <;> simp [charsOfComponents, Component.toChars]
    have hhead : c.toChars.head? ≠ some '/' ∧ c.toChars ≠ [] := by
      cases c with
      | root => exact absurd rfl hc
      | current | parent => decide
      | name t =>
        obtain ⟨hne, -, -, hsep⟩ := h t List.mem_cons_self
        exact ⟨fun hhead ↦ hsep (List.mem_of_head? hhead), hne⟩
    have hfirst : (charsOfComponents (c :: cs)).head? = c.toChars.head? := by
      cases cs with
      | nil => rfl
      | cons d cs =>
        rw [charsOfComponents_cons hc, List.head?_append]
        cases hchars : c.toChars with
        | nil => exact absurd hchars hhead.2
        | cons x xs => rfl
    rw [hfirst]
    simp [hhead.1, hc]

theorem notMem_componentsOfPieces {c : Component} (hc : c = .root ∨ c = .current)
    (ps : List (List Char)) : c ∉ componentsOfPieces ps := by
  intro h
  obtain ⟨t, -, heq⟩ := List.mem_filterMap.1 h
  split at heq
  · cases heq
  · split at heq <;> cases heq <;> rcases hc with hc | hc <;> cases hc

theorem notMem_tail_components {c : Component} (hc : c = .root ∨ c = .current) (p : Path) :
    c ∉ p.components.tail := by
  have hpieces := notMem_componentsOfPieces hc (Text.pieces '/' p.text.toList)
  obtain ⟨cs, hcs, hkind⟩ := p.components_eq
  rw [hcs]
  rcases hkind with ⟨-, rfl⟩ | ⟨-, rfl | rfl⟩
  · exact hpieces
  · exact hpieces
  · exact fun h ↦ hpieces (List.mem_of_mem_tail h)

theorem head?_components (p : Path) : p.components.head? = some .root ↔ p.isAbsolute = true := by
  have hpieces := notMem_componentsOfPieces (.inl rfl) (Text.pieces '/' p.text.toList)
  obtain ⟨cs, hcs, ⟨habsolute, rfl⟩ | ⟨hrelative, rfl | rfl⟩⟩ := p.components_eq
  · simp [hcs, habsolute]
  · simp [hcs, hrelative]
  · rw [hcs, hrelative, List.nil_append]
    exact iff_of_false (fun h ↦ hpieces (List.mem_of_head? h)) Bool.false_ne_true

theorem plainSteps_parent (h : p.parent? = some q) :
    plainSteps q.bytes = (plainSteps p.bytes).dropLast ∧ q.isAbsolute = p.isAbsolute := by
  unfold parent? at h
  have hproper := p.proper_components
  have hhead := p.head?_components
  have hcurrent := notMem_tail_components (.inr rfl) p
  have hplain := p.plainSteps_bytes
  rcases List.eq_nil_or_concat p.components with hnil | ⟨init, c, hc⟩
  · simp [hnil] at h
  rw [List.concat_eq_append] at hc
  rw [hc] at h hproper hhead hcurrent hplain
  have hinit : Proper init := fun t ht ↦ hproper t (List.mem_append_left _ ht)
  rw [List.getLast?_concat, List.dropLast_concat] at h
  have hne : c ≠ .root := by
    rintro rfl
    cases h
  have hq : q = ofComponents init := by
    cases c with
    | root => exact absurd rfl hne
    | current | parent | name t => exact (Option.some.inj h).symm
  subst hq
  refine ⟨?_, ?_⟩
  · rw [plainSteps_ofComponents hinit, hplain, List.filterMap_append, List.map_append]
    cases c with
    | root => exact absurd rfl hne
    | current =>
      cases init with
      | nil => rfl
      | cons d init => simp at hcurrent
    | parent | name t => exact List.dropLast_concat.symm
  · rw [Bool.eq_iff_iff, isAbsolute_ofComponents hinit, ← hhead]
    cases init with
    | nil => simp [hne]
    | cons d init => rfl

/-- Components that go up nowhere. -/
structure Climbless (cs : List Component) : Prop where
  proper : Proper cs
  no_parent : .parent ∉ cs

theorem stepUp_mem_step? {cs : List Component} (h : Proper cs) :
    stepUp ∈ (cs.filterMap Component.step?).map Text.encodeChars ↔ .parent ∈ cs := by
  have hup (t : List Char) : Text.encodeChars t = stepUp ↔ t = ['.', '.'] :=
    (Text.encodeChars_inj : _ = Text.encodeChars ['.', '.'] ↔ _)
  simp only [List.mem_map, List.mem_filterMap, hup, exists_eq_right]
  constructor
  · rintro ⟨c, hc, hstep⟩
    cases c with
    | root | current => cases hstep
    | parent => exact hc
    | name t => exact absurd (Option.some.inj hstep) (h t hc).2.2.1
  · exact fun hparent ↦ ⟨.parent, hparent, rfl⟩

theorem stepUp_mem_plainSteps (p : Path) :
    stepUp ∈ plainSteps p.bytes ↔ .parent ∈ p.components := by
  rw [plainSteps_bytes, stepUp_mem_step? p.proper_components]

theorem climbless_components (h : stepUp ∉ plainSteps p.bytes) : Climbless p.components :=
  ⟨p.proper_components, fun hparent ↦ h (p.stepUp_mem_plainSteps.2 hparent)⟩

namespace Climbless

variable {cs ds : List Component}

theorem of_subset (h : Climbless cs) (hs : ds ⊆ cs) : Climbless ds :=
  ⟨fun t ht ↦ h.proper t (hs ht), fun hparent ↦ h.no_parent (hs hparent)⟩

theorem resolveStep {c : Component} (h : Climbless cs) (hc : Proper [c]) :
    Climbless (Path.resolveStep cs c) := by
  cases c with
  | root | current => exact h
  | parent =>
    change Climbless (climb cs)
    unfold climb
    split
    · exact h
    · exact h.of_subset (List.dropLast_subset cs)
  | name t =>
    refine ⟨fun u hu ↦ ?_, fun hparent ↦ ?_⟩
    · exact (List.mem_append.1 hu).elim (h.proper u) (hc u)
    · exact (List.mem_append.1 hparent).elim h.no_parent (by simp)

theorem foldl_resolveStep (h : Climbless cs) (hds : Proper ds) :
    Climbless (ds.foldl Path.resolveStep cs) := by
  induction ds generalizing cs with
  | nil => exact h
  | cons d ds ih =>
    have hd : Proper [d] := fun t ht ↦ hds t (List.mem_singleton.1 ht ▸ List.mem_cons_self)
    exact ih (h.resolveStep hd) fun t ht ↦ hds t (List.mem_cons_of_mem d ht)

theorem notMem_plainSteps (h : Climbless cs) : stepUp ∉ plainSteps (ofComponents cs).bytes := by
  rw [plainSteps_ofComponents h.proper, stepUp_mem_step? h.proper]
  exact h.no_parent

end Climbless

theorem climbless_resolveStart {cs : List Component} {base : Path}
    (h : stepUp ∉ plainSteps base.bytes) (hcs : Proper cs) :
    Climbless (resolveStart cs base).1 ∧ Proper (resolveStart cs base).2 := by
  have hbase := climbless_components h
  have hnil : Climbless [] := hbase.of_subset (List.nil_subset _)
  have hroot : Climbless [.root] := ⟨by simp [Proper], by simp⟩
  cases cs with
  | nil => exact ⟨hbase, hcs⟩
  | cons c cs =>
    have htail : Proper cs := fun t ht ↦ hcs t (List.mem_cons_of_mem c ht)
    cases c with
    | root => exact ⟨hroot, htail⟩
    | current => exact ⟨hbase, htail⟩
    | name t => exact ⟨hbase, hcs⟩
    | parent =>
      unfold resolveStart
      dsimp only
      cases hup : base.parent? with
      | some up =>
        refine ⟨climbless_components ?_, htail⟩
        rw [(plainSteps_parent hup).1]
        exact fun hmem ↦ h (List.dropLast_subset _ hmem)
      | none =>
        dsimp only
        split
        · exact ⟨hroot, htail⟩
        · exact ⟨hnil, htail⟩

theorem notMem_plainSteps_absolute {base : Path} (h : stepUp ∉ plainSteps base.bytes) (p : Path) :
    stepUp ∉ plainSteps (p.absolute base).bytes := by
  unfold absolute
  split
  · exact h
  · obtain ⟨hstart, hrest⟩ := climbless_resolveStart h p.proper_components
    exact (hstart.foldl_resolveStep hrest).notMem_plainSteps

theorem head?_foldl_resolveStep {cs : List Component} (h : cs.head? = some .root)
    (ds : List Component) : (ds.foldl resolveStep cs).head? = some .root := by
  induction ds generalizing cs with
  | nil => exact h
  | cons d ds ih =>
    refine ih ?_
    obtain ⟨rest, rfl⟩ := List.head?_eq_some_iff.1 h
    cases d with
    | root | current | name t => rfl
    | parent =>
      change (climb (.root :: rest)).head? = some .root
      unfold climb
      split
      · rfl
      · next hmore =>
        cases rest with
        | nil => exact absurd rfl hmore
        | cons c rest => rfl

theorem head?_resolveStart {base : Path} (h : base.isAbsolute = true) (cs : List Component) :
    (resolveStart cs base).1.head? = some .root := by
  have hbase := base.head?_components.2 h
  cases cs with
  | nil => exact hbase
  | cons c cs =>
    cases c with
    | root => rfl
    | current | name t => exact hbase
    | parent =>
      unfold resolveStart
      dsimp only
      cases hup : base.parent? with
      | some up => exact up.head?_components.2 ((plainSteps_parent hup).2.trans h)
      | none =>
        dsimp only
        rw [if_pos h]
        rfl

theorem bytes_absolute_ne_nil {base : Path} (h : base.isAbsolute = true) (p : Path) :
    (p.absolute base).bytes ≠ [] := by
  intro hnil
  have htext : (p.absolute base).text = "" := Text.encode_inj.1 (hnil : _ = Text.encode "")
  unfold absolute at htext
  split at htext
  · rw [isAbsolute, htext] at h
    cases h
  · have hhead := head?_foldl_resolveStep (head?_resolveStart h p.components)
      (resolveStart p.components base).2
    obtain ⟨rest, hrest⟩ := List.head?_eq_some_iff.1 hhead
    have hroot : (ofComponents (.root :: rest)).text = "" := hrest ▸ htext
    have hchars := congrArg String.toList hroot
    cases rest <;> simp [ofComponents, charsOfComponents, Component.toChars] at hchars

/-- A name that can stand in a directory and is no way to another one. -/
structure IsPlainName (n : String) : Prop where
  ne_empty : n ≠ ""
  ne_here : n ≠ "."
  ne_up : n ≠ ".."
  no_separator : '/' ∉ n.toList

namespace IsPlainName

variable {n : String} (h : IsPlainName n)
include h

theorem separator_notMem : separator ∉ Text.encode n := by
  rw [Text.encode_eq]
  exact Text.separator_notMem_encodeChars h.no_separator

theorem encode_ne_nil : Text.encode n ≠ [] := fun hn ↦ h.ne_empty (Text.encode_inj.1 hn)

theorem encode_ne_here : Text.encode n ≠ stepHere := fun hn ↦ h.ne_here (Text.encode_inj.1 hn)

theorem encode_ne_up : Text.encode n ≠ stepUp := fun hn ↦ h.ne_up (Text.encode_inj.1 hn)

end IsPlainName

theorem bytes_join {n : String} (hn : IsPlainName n) (p : Path) :
    p.bytes = [] ∧ (p.join n).bytes = Text.encode n ∨
      ∃ bs, (p.bytes = bs ++ [separator] ∨ p.bytes = bs ∧ bs ≠ []) ∧
        (p.join n).bytes = bs ++ separator :: Text.encode n := by
  have hhead : n.toList.head? ≠ some '/' := fun h ↦ hn.no_separator (List.mem_of_head? h)
  unfold join
  rw [if_neg hhead]
  split
  · next hend =>
    have hbytes : (⟨p.text ++ n⟩ : Path).bytes = p.bytes ++ Text.encode n := Text.encode_append _ _
    rw [hbytes]
    rw [Bool.or_eq_true, beq_iff_eq] at hend
    obtain hempty | hlast := hend
    · have htext : p.text = "" := by simpa using hempty
      have hp : p.bytes = [] := by
        unfold bytes
        rw [htext]
        rfl
      exact .inl ⟨hp, by rw [hp, List.nil_append]⟩
    · obtain ⟨cs, hcs⟩ := List.getLast?_eq_some_iff.1 hlast
      have hp : p.bytes = Text.encodeChars cs ++ [separator] := by
        rw [bytes_eq, hcs, Text.encodeChars_append]
        rfl
      exact .inr ⟨Text.encodeChars cs, .inl hp, by rw [hp, List.append_assoc]; rfl⟩
  · next hend =>
    refine .inr ⟨p.bytes, .inr ⟨rfl, ?_⟩, ?_⟩
    · intro hp
      have htext : p.text = "" := Text.encode_inj.1 (hp : _ = Text.encode "")
      simp [htext] at hend
    · change Text.encode (p.text ++ "/" ++ n) = _
      rw [Text.encode_append, Text.encode_append, List.append_assoc]
      rfl

theorem ofBytes_join {n : String} (hn : IsPlainName n) (p : Path) :
    Route.ofBytes (p.join n).bytes = ⟨(Route.ofBytes p.bytes).fromRoot,
      (Route.ofBytes p.bytes).steps ++ [Text.encode n], false⟩ := by
  have hname : (names (Text.encode n)).filter (· ≠ []) = [Text.encode n] := by
    rw [names_of_notMem hn.separator_notMem]
    exact List.filter_cons_of_pos (by simpa using hn.encode_ne_nil)
  have hfirst : (Text.encode n).head? ≠ some separator :=
    fun h ↦ hn.separator_notMem (List.mem_of_head? h)
  have hlast : (Text.encode n).getLast? ≠ some separator :=
    fun h ↦ hn.separator_notMem (List.mem_of_getLast? h)
  obtain ⟨hp, hjoin⟩ | ⟨bs, hp, hjoin⟩ := p.bytes_join hn
  · rw [hjoin, hp]
    unfold Route.ofBytes
    rw [hname, decide_eq_false hfirst, decide_eq_false hlast]
    rfl
  have hsteps : (names p.bytes).filter (· ≠ []) = (names bs).filter (· ≠ []) := by
    obtain hp | ⟨hp, -⟩ := hp
    · rw [hp, names_append_sep, List.filter_append]
      exact List.append_nil _
    · rw [hp]
  have hstart : p.bytes.head? = (bs ++ separator :: Text.encode n).head? := by
    obtain hp | ⟨hp, hne⟩ := hp
    · rw [hp]
      cases bs <;> rfl
    · rw [hp]
      cases bs with
      | nil => exact absurd rfl hne
      | cons b bs => rfl
  have hend : (bs ++ separator :: Text.encode n).getLast? ≠ some separator := by
    rw [List.getLast?_append, List.getLast?_cons_of_ne_nil hn.encode_ne_nil,
      List.getLast?_eq_some_getLast hn.encode_ne_nil, Option.some_or]
    rwa [List.getLast?_eq_some_getLast hn.encode_ne_nil] at hlast
  rw [hjoin]
  unfold Route.ofBytes
  rw [hsteps, hstart, decide_eq_false hend, names_append_sep, List.filter_append, hname]

theorem plainSteps_join {n : String} (hn : IsPlainName n) (p : Path) :
    plainSteps (p.join n).bytes = plainSteps p.bytes ++ [Text.encode n] := by
  unfold plainSteps
  rw [ofBytes_join hn, List.filter_append]
  exact congrArg _ (List.filter_cons_of_pos (by simpa using hn.encode_ne_here))

theorem bytes_join_ne_nil {n : String} (hn : IsPlainName n) (p : Path) : (p.join n).bytes ≠ [] := by
  obtain ⟨-, hjoin⟩ | ⟨bs, -, hjoin⟩ := p.bytes_join hn
  · rw [hjoin]
    exact hn.encode_ne_nil
  · simp [hjoin]

theorem lastStep?_join {n : String} (hn : IsPlainName n) (p : Path) :
    lastStep? (p.join n).bytes = some (Text.encode n) := by
  unfold lastStep?
  rw [ofBytes_join hn]
  exact List.getLast?_concat

end Path

end ReleaseTrain
