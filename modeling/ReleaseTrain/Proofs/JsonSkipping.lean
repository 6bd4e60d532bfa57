import ReleaseTrain.Proofs.JsonReading

namespace ReleaseTrain.Json

open Text (Bytes)

namespace Reader

section Strings

variable {bs bs' : Bytes} {ch : Char} {cs : List Char} {steps : Nat}

theorem reads_skipPlain (hbs : ∀ b ∈ bs, IsPlain b) (h : Reads Anything (skipString steps) bs' ()) :
    Reads Anything (skipString (bs.length + steps)) (bs ++ bs') () := by
  induction bs with
  | nil => rwa [List.length_nil, Nat.zero_add]
  | cons b bs ih =>
    obtain ⟨hquote, hslash, hspace⟩ := hbs b List.mem_cons_self
    rw [List.length_cons, Nat.add_right_comm, skipString]
    refine .afterPeek ?_
    dsimp only
    rw [if_neg hspace]
    refine .afterSkip ?_
    rw [if_neg hquote, if_neg hslash]
    exact ih fun b hb ↦ hbs b (List.mem_cons_of_mem _ hb)

/-- Both halves of a character are gone past as if they were characters of their own. -/
theorem reads_skipNumbered {n : Nat} {hex : Bytes} (hhex : Hex n hex)
    (h : Reads Anything (skipString steps) bs' ()) :
    Reads Anything (skipString (steps + 1)) (byte '\\' :: byte 'u' :: hex ++ bs') () := by
  rw [skipString]
  refine .afterPeek (b := byte '\\') ?_
  dsimp only
  rw [if_neg (by decide)]
  refine .afterSkip ?_
  rw [if_neg (by decide), if_pos rfl]
  refine .afterNext ?_
  dsimp only
  rw [if_pos rfl]
  exact (reads_hexEscape hhex).andThen h

theorem reads_skipShort {letter : Char} (hch : (letter, ch) ∈ shortEscapes)
    (h : Reads Anything (skipString steps) bs' ()) :
    Reads Anything (skipString (steps + 1)) (byte '\\' :: byte letter :: bs') () := by
  have hletter : ∀ p ∈ shortEscapes, byte p.1 ≠ byte 'u' :=
    List.all_iff_forall_prop.1 (by decide)
  rw [skipString]
  refine .afterPeek (b := byte '\\') ?_
  dsimp only
  rw [if_neg (by decide)]
  refine .afterSkip ?_
  rw [if_neg (by decide), if_pos rfl]
  refine .afterNext ?_
  dsimp only
  rw [if_neg (hletter _ hch), simpleEscape?_of_mem hch]
  exact h

theorem reads_skipString (h : SpellsString cs bs) (hsteps : bs.length ≤ steps) :
    Reads Anything (skipString steps) bs () := by
  induction h generalizing steps with
  | nil =>
    obtain ⟨steps, rfl⟩ := Nat.exists_eq_add_one.2 hsteps
    rw [skipString]
    refine .afterPeek (b := byte '"') ?_
    dsimp only
    rw [if_neg (by decide)]
    refine (reads_skip (byte '"')).finish ?_
    rw [if_pos rfl]
    exact .pure ()
  | @cons ch cs bs bs' hch _ ih =>
    rw [List.length_append] at hsteps
    cases hch with
    | plain hcode hquote hslash =>
      obtain ⟨left, rfl⟩ := Nat.exists_eq_add_of_le (Nat.le_of_add_right_le hsteps)
      have hplain : ∀ b ∈ String.utf8EncodeChar ch, IsPlain b :=
        fun _ ↦ isPlain_of_mem hcode hquote hslash
      exact reads_skipPlain hplain (ih (Nat.le_of_add_le_add_left hsteps))
    | short hletter =>
      simp only [List.length_cons, List.length_nil] at hsteps
      obtain ⟨left, rfl⟩ := Nat.exists_eq_add_one.2 (show 0 < steps by omega)
      exact reads_skipShort hletter (ih (by omega))
    | number hhex =>
      simp only [List.length_cons] at hsteps
      obtain ⟨left, rfl⟩ := Nat.exists_eq_add_one.2 (show 0 < steps by omega)
      exact reads_skipNumbered hhex (ih (by omega))
    | @halves _ _ _ hex hex' _ _ _ hhex hhex' =>
      simp only [List.length_cons, List.length_append] at hsteps
      obtain ⟨left, rfl⟩ := Nat.exists_eq_add_of_le' (show 2 ≤ steps by omega)
      rw [List.append_assoc]
      exact reads_skipNumbered hhex (reads_skipNumbered hhex' (ih (by omega)))

end Strings

section Numbers

variable {α : Type} {a : α} {bs ds : Bytes} {b : UInt8}

theorem NoDigit.not_isDigit (h : NoDigit bs) : ¬(bs.head?.map isDigit).getD false = true := by
  cases bs with
  | nil => exact Bool.false_ne_true
  | cons b bs =>
    rw [List.head?_cons, Option.map_some, h b rfl]
    exact Bool.false_ne_true

theorem reads_digits (hds : ∀ d ∈ ds, IsDigit d) : Reads NoDigit digits ds ds := by
  intro rest index hrest
  have htake : (ds ++ rest).takeWhile isDigit = ds := by
    rw [List.takeWhile_append_of_pos fun d hd ↦ isDigit_iff.2 (hds d hd), hrest.takeWhile_eq,
      List.append_nil]
  refine ⟨index + ds.length, ?_⟩
  change EStateM.Result.ok _ (Cursor.mk _ _) = _
  rw [htake, List.drop_left]

/-- The end of `skipNumber`, from the exponent on. -/
def skipExponent : Reader Unit := do
  if isExponentMark (← peek) then
    skip
    match ← peek with
    | some b => if b = byte '+' ∨ b = byte '-' then skip
    | none => pure ()
    match ← next with
    | some d =>
      unless isDigit d do fail .invalidNumber
      let _ ← digits
    | none => fail .invalidNumber

/-- The end of `skipNumber`, from the point on. -/
def skipFraction : Reader Unit := do
  if (← peek) = some (byte '.') then
    skip
    if (← digits).isEmpty then failAhead .invalidNumber
  skipExponent

theorem skipNumber_eq : skipNumber = (do
    match ← next with
    | none => fail .invalidNumber
    | some b =>
      if b = byte '0' then
        if ((← peek).map isDigit).getD false then failAhead .invalidNumber
      else if isDigit b then let _ ← digits
      else fail .invalidNumber
      skipFraction) := rfl

theorem Reads.ended {k : Option UInt8 → Reader α} (hnone : ∀ b ∈ enders, k (some b) = k none)
    (h : Reads Ends (k none) [] a) : Reads Ends (peek >>= k) [] a := by
  intro rest index hrest
  obtain ⟨stop, hstop⟩ := h rest index hrest
  exact ⟨stop, (peek_of_ends hnone hrest index).trans hstop⟩

theorem of_mem_marks (h : b ∈ [byte 'e', byte 'E']) : isExponentMark (some b) = true ∧
    isDigit b = false ∧ some b ≠ some (byte '.') := by
  have hall : ∀ b ∈ [byte 'e', byte 'E'], isExponentMark (some b) = true ∧
    isDigit b = false ∧ some b ≠ some (byte '.') := List.all_iff_forall_prop.1 (by decide)
  exact hall b h

theorem mark_or_end (h : Exponent bs) :
    bs = [] ∨ ∃ mark tail, bs = mark :: tail ∧ mark ∈ [byte 'e', byte 'E'] := by
  cases h with
  | none => exact .inl rfl
  | digits hmark _ _ => exact .inr ⟨_, _, rfl, hmark⟩

theorem reads_skipExponent (h : Exponent bs) : Reads Ends skipExponent bs () := by
  unfold skipExponent
  cases h with
  | none =>
    refine .ended (fun b hb ↦ ?_) ?_
    · rw [(of_mem_enders hb).2.1]
      rfl
    · exact .pure ()
  | @digits mark sign ds hmark hsign hds =>
    obtain ⟨d, ds, rfl⟩ := List.exists_cons_of_ne_nil hds.1
    have hd : IsDigit d := hds.2 d List.mem_cons_self
    have hdigits : Reads Ends (do
        match ← next with
        | some d =>
          unless isDigit d do fail .invalidNumber
          let _ ← digits
        | none => fail .invalidNumber) (d :: ds) () := by
      refine .afterNext ?_
      dsimp only
      rw [if_pos (isDigit_iff.2 hd)]
      have hread := reads_digits fun d hd ↦ hds.2 d (List.mem_cons_of_mem _ hd)
      exact (hread.mono fun _ ↦ noDigit_of_ends).finish (.pure ())
    refine .afterPeek ?_
    rw [if_pos (of_mem_marks hmark).1]
    refine .afterSkip ?_
    simp only [List.mem_cons, List.not_mem_nil, or_false] at hsign
    rcases hsign with rfl | rfl | rfl
    · refine .afterPeek (b := d) ?_
      dsimp only
      rw [if_neg (not_or_intro (ne_of_isDigit hd (by decide)) (ne_of_isDigit hd (by decide)))]
      exact hdigits
    · refine .afterPeek (b := byte '+') ?_
      dsimp only
      rw [if_pos (.inl rfl)]
      exact .afterSkip hdigits
    · refine .afterPeek (b := byte '-') ?_
      dsimp only
      rw [if_pos (.inr rfl)]
      exact .afterSkip hdigits

theorem noDigit_exponent {exponent rest : Bytes} (h : Exponent exponent) (hrest : Ends rest) :
    NoDigit (exponent ++ rest) := by
  rcases mark_or_end h with rfl | ⟨mark, tail, rfl, hmark⟩
  · exact noDigit_of_ends hrest
  · rintro b hb
    cases hb
    exact (of_mem_marks hmark).2.1

theorem noDigit_fraction {fraction exponent rest : Bytes} (h : Fraction fraction)
    (h' : Exponent exponent) (hrest : Ends rest) : NoDigit (fraction ++ exponent ++ rest) := by
  cases h with
  | none => exact noDigit_exponent h' hrest
  | digits _ =>
    rintro b hb
    cases hb
    decide

theorem reads_skipFraction {fraction exponent : Bytes} (h : Fraction fraction)
    (h' : Exponent exponent) : Reads Ends skipFraction (fraction ++ exponent) () := by
  unfold skipFraction
  cases h with
  | none =>
    rcases mark_or_end h' with rfl | ⟨mark, tail, rfl, hmark⟩
    · refine .ended (fun b hb ↦ ?_) (reads_skipExponent .none)
      have hdot : some b ≠ some (byte '.') :=
        fun h ↦ (of_mem_enders hb).2.2.1 (Option.some.inj h)
      rw [if_neg hdot, if_neg (by simp)]
    · refine .afterPeek (b := mark) ?_
      rw [if_neg (of_mem_marks hmark).2.2]
      exact reads_skipExponent h'
  | @digits ds hds =>
    refine .afterPeek (b := byte '.') ?_
    rw [if_pos rfl]
    refine .afterSkip ?_
    refine (reads_digits hds.2).bind ?_ fun _ ↦ noDigit_exponent h'
    have hsome : ¬ds.isEmpty = true := by simpa using hds.1
    rw [if_neg hsome]
    exact reads_skipExponent h'

theorem reads_skipNumber (h : Unsigned bs) : Reads Ends skipNumber bs () := by
  obtain ⟨hwhole, hfraction, hexponent⟩ := h
  have hrest := reads_skipFraction hfraction hexponent
  rw [skipNumber_eq]
  cases hwhole with
  | zero =>
    refine (reads_next (byte '0')).andThen ?_
    dsimp only
    rw [if_pos rfl]
    intro rest index h
    obtain ⟨stop, hstop⟩ := hrest rest index h
    refine ⟨stop, ((bind_of_ok rfl).trans ?_).trans hstop⟩
    rw [if_neg (noDigit_fraction hfraction hexponent h).not_isDigit]
  | @digits d ds hd hzero hds =>
    refine .afterNext ?_
    dsimp only
    rw [if_neg hzero, if_pos (isDigit_iff.2 hd)]
    refine (reads_digits hds).bind hrest fun rest h ↦ ?_
    exact noDigit_fraction hfraction hexponent h

end Numbers

section Parts

variable {α β : Type} {follow follow' : Bytes → Prop} {r r' r'' : Reader α} {a : α}
  {bs bs' ws lead rest : Bytes} {b : UInt8} {first : Bool} {around : List Bracket} {v : Value}
  {vs : List Value} {ms : List (String × Value)} {part : Part}

/-- Before a fitting rest, the reader takes in the bytes and goes on as `r'`. -/
def Becomes (follow : Bytes → Prop) (r : Reader α) (bs : Bytes) (r' : Reader α) : Prop :=
  ∀ rest index, follow rest → ∃ index', r ⟨bs ++ rest, index⟩ = r' ⟨rest, index'⟩

theorem Becomes.trans (h : Becomes follow r bs r') (h' : Becomes follow' r' bs' r'')
    (hfollow : ∀ rest, follow' rest → follow (bs' ++ rest)) :
    Becomes follow' r (bs ++ bs') r'' := by
  intro rest index hrest
  obtain ⟨i, hi⟩ := h (bs' ++ rest) index (hfollow rest hrest)
  obtain ⟨j, hj⟩ := h' rest i hrest
  rw [List.append_assoc]
  exact ⟨j, hi.trans hj⟩

theorem Reads.becomes {k : α → Reader β} (h : Reads follow r bs a) :
    Becomes follow (r >>= k) bs (k a) := by
  intro rest index hrest
  obtain ⟨i, hi⟩ := h rest index hrest
  exact ⟨i, bind_of_ok hi⟩

theorem Becomes.mono (h : Becomes follow r bs r') (hfollow : ∀ rest, follow' rest → follow rest) :
    Becomes follow' r bs r' := fun rest index hrest ↦ h rest index (hfollow rest hrest)

theorem Becomes.after {r : Reader β} {a : β} {k : β → Reader α} (h : Reads Anything r bs a)
    (hk : Becomes follow (k a) bs' r') : Becomes follow (r >>= k) (bs ++ bs') r' :=
  h.becomes.trans hk fun _ _ ↦ trivial

theorem Becomes.beginning {k : UInt8 → Reader α} (hws : Blanks ws) (hb : isSpace b = false)
    (h : Becomes follow (k b) (b :: bs) r') :
    Becomes follow (beginValue >>= k) (ws ++ b :: bs) r' :=
  (reads_beginValue hws hb).becomes.trans h fun _ _ ↦ rfl

theorem Becomes.bind (h : Becomes follow r bs r') (k : α → Reader β) :
    Becomes follow (r >>= k) bs (r' >>= k) := by
  intro rest index hrest
  obtain ⟨i, hi⟩ := h rest index hrest
  refine ⟨i, ?_⟩
  change EStateM.bind r k _ = EStateM.bind r' k _
  simp only [EStateM.bind, hi]

/-- What `skipWithin` does behind a value, or behind a bracket that opens. -/
def resume (steps : Nat) (around : List Bracket) (comma : Bool) : Reader Unit := do
  match ← skipEnds around comma with
  | [] => return
  | .list :: around => skipWithin steps (.list :: around)
  | .object :: around =>
    skipKey steps
    skipWithin steps (.object :: around)

def closing (bracket : Bracket) : UInt8 :=
  if bracket = .list then byte ']' else byte '\x7d'

theorem becomes_skipEnds (bracket : Bracket) (comma : Bool) (hws : Blanks ws) :
    Becomes Anything (skipEnds (bracket :: around) comma) (ws ++ [closing bracket])
      (skipEnds around true) := by
  have hclosing : isSpace (closing bracket) = false ∧ closing bracket ≠ byte ',' := by
    cases bracket <;> decide
  rw [skipEnds]
  refine (reads_blanks hws hclosing.1).becomes.trans ?_ fun _ _ ↦ rfl
  dsimp only
  have hthere : closing bracket = if bracket = .list then byte ']' else byte '\x7d' := rfl
  rw [if_neg (by simp [hclosing.2]), if_pos hthere]
  exact (reads_skip _).becomes

theorem reads_skipEnds (bracket : Bracket) (around : List Bracket) (h : Lead first lead)
    (hb : isSpace b = false) (hend : b ≠ closing bracket) :
    ∃ lead' ws, lead = lead' ++ ws ∧ Blanks ws ∧
      Reads (fun rest ↦ ∃ rest', rest = ws ++ b :: rest') (skipEnds (bracket :: around) !first)
        lead' (bracket :: around) := by
  cases h with
  | first hws =>
    refine ⟨lead, [], (List.append_nil lead).symm, blanks_nil, ?_⟩
    rw [skipEnds]
    refine Reads.finish ((reads_blanks hws hb).mono ?_) ?_
    · rintro _ ⟨rest, rfl⟩
      rfl
    have hthere : ¬b = if bracket = .list then byte ']' else byte '\x7d' := hend
    dsimp only
    rw [if_neg (by simp), if_neg hthere, if_neg (by simp)]
    exact .pure _
  | @later ws ws' hws hws' =>
    refine ⟨ws ++ [byte ','], ws', by simp, hws', Reads.anywhere ?_⟩
    rw [skipEnds]
    refine (reads_blanks hws (by decide : isSpace (byte ',') = false)).bind ?_ fun _ _ ↦ rfl
    dsimp only
    rw [if_pos (by decide)]
    exact (reads_skip _).finish (.pure _)

theorem reads_skipKey {steps : Nat} {cs : List Char} {key ws' : Bytes} (hws : Blanks ws)
    (hkey : SpellsString cs key) (hws' : Blanks ws') (hsteps : key.length ≤ steps) :
    Reads Anything (skipKey steps) (ws ++ byte '"' :: key ++ (ws' ++ [byte ':'])) () := by
  rw [List.append_assoc]
  refine (reads_blanks hws (by decide : isSpace (byte '"') = false)).bind ?_ fun _ _ ↦ rfl
  dsimp only
  rw [if_pos rfl]
  refine .afterSkip ?_
  exact (reads_skipString hkey hsteps).andThen (reads_colon hws')

/-- How a spelled part is gone past, given the brackets around it and enough steps. No more steps
are used up than the part has bytes. -/
def IsSkipped : Part → Bytes → Prop
  | .value _, bs => ∀ ws steps around, Blanks ws → bs.length ≤ steps →
      ∃ left, steps ≤ left + bs.length ∧
        Becomes Ends (skipWithin steps around) (ws ++ bs) (resume left around true)
  | .items first _, bs => ∀ steps around, bs.length ≤ steps → ∃ left, steps ≤ left + bs.length ∧
      Becomes Anything (resume steps (.list :: around) !first) (bs ++ [byte ']'])
        (resume left around true)
  | .members first _, bs => ∀ steps around, bs.length ≤ steps → ∃ left, steps ≤ left + bs.length ∧
      Becomes Anything (resume steps (.object :: around) !first) (bs ++ [byte '\x7d'])
        (resume left around true)

theorem isSkipped_null : IsSkipped (.value .null) (Text.encode "null") := by
  intro ws steps around hws hsteps
  obtain ⟨steps, rfl⟩ := Nat.exists_eq_add_one.2 (Nat.lt_of_lt_of_le (by decide) hsteps)
  refine ⟨steps, Nat.add_le_add_left (by decide) steps, ?_⟩
  rw [skipWithin, encode_null]
  refine .beginning hws (by decide) ?_
  dsimp only
  rw [if_pos rfl]
  exact .after (reads_skip _) reads_nullRest.anywhere.becomes

theorem isSkipped_true : IsSkipped (.value (.boolean true)) (Text.encode "true") := by
  intro ws steps around hws hsteps
  obtain ⟨steps, rfl⟩ := Nat.exists_eq_add_one.2 (Nat.lt_of_lt_of_le (by decide) hsteps)
  refine ⟨steps, Nat.add_le_add_left (by decide) steps, ?_⟩
  rw [skipWithin, encode_true]
  refine .beginning hws (by decide) ?_
  dsimp only
  rw [if_neg (by decide), if_pos rfl]
  exact .after (reads_skip _) reads_trueRest.anywhere.becomes

theorem isSkipped_false : IsSkipped (.value (.boolean false)) (Text.encode "false") := by
  intro ws steps around hws hsteps
  obtain ⟨steps, rfl⟩ := Nat.exists_eq_add_one.2 (Nat.lt_of_lt_of_le (by decide) hsteps)
  refine ⟨steps, Nat.add_le_add_left (by decide) steps, ?_⟩
  rw [skipWithin, encode_false]
  refine .beginning hws (by decide) ?_
  dsimp only
  rw [if_neg (by decide), if_neg (by decide), if_pos rfl]
  exact .after (reads_skip _) reads_falseRest.anywhere.becomes

theorem isSkipped_number {text : String} (h : Number bs) :
    IsSkipped (.value (.number text)) bs := by
  intro ws steps around hws hsteps
  cases h with
  | negative h =>
    obtain ⟨steps, rfl⟩ := Nat.exists_eq_add_one.2 (Nat.zero_lt_of_lt hsteps)
    refine ⟨steps, Nat.add_le_add_left (Nat.le_add_left 1 _) steps, ?_⟩
    rw [skipWithin]
    refine .beginning (b := byte '-') hws (by decide) ?_
    dsimp only
    rw [if_neg (by decide), if_neg (by decide), if_neg (by decide), if_pos rfl]
    exact .after (reads_skip _) (reads_skipNumber h).becomes
  | positive h =>
    have hread := (reads_skipNumber h).becomes (k := fun _ ↦ resume (steps - 1) around true)
    obtain ⟨d, tail, rfl, hd⟩ := head_of_unsigned h
    obtain ⟨steps, rfl⟩ := Nat.exists_eq_add_one.2 (Nat.zero_lt_of_lt hsteps)
    refine ⟨steps, Nat.add_le_add_left (Nat.le_add_left 1 _) steps, ?_⟩
    obtain ⟨hspace, -, hn, ht, hf, -⟩ := head_byte (.inr hd)
    rw [skipWithin]
    refine .beginning hws hspace ?_
    dsimp only
    rw [if_neg hn, if_neg ht, if_neg hf, if_neg (ne_of_isDigit hd rfl), if_pos (isDigit_iff.2 hd)]
    exact hread

theorem isSkipped_string {text : String} (h : SpellsString text.toList bs) :
    IsSkipped (.value (.string text)) (byte '"' :: bs) := by
  intro ws steps around hws hsteps
  rw [List.length_cons] at hsteps
  obtain ⟨steps, rfl⟩ := Nat.exists_eq_add_one.2 (Nat.zero_lt_of_lt hsteps)
  refine ⟨steps, by rw [List.length_cons]; omega, ?_⟩
  rw [skipWithin]
  refine .beginning (b := byte '"') hws (by decide) ?_
  dsimp only
  rw [if_neg (by decide), if_neg (by decide), if_neg (by decide), if_neg (by decide),
    if_neg (by decide), if_pos rfl]
  have hread := reads_skipString h (Nat.le_of_add_le_add_right hsteps)
  exact .after (reads_skip _) hread.anywhere.becomes

theorem IsSkipped.array (h : IsSkipped (.items true vs) bs) :
    IsSkipped (.value (.array vs)) (byte '[' :: bs ++ [byte ']']) := by
  intro ws steps around hws hsteps
  simp only [List.cons_append, List.length_cons, List.length_append, List.length_nil] at hsteps ⊢
  obtain ⟨steps, rfl⟩ := Nat.exists_eq_add_one.2 (Nat.zero_lt_of_lt hsteps)
  obtain ⟨left, hleft, hinner⟩ := h steps around (by omega)
  refine ⟨left, by omega, ?_⟩
  rw [skipWithin]
  refine .beginning (b := byte '[') hws (by decide) ?_
  dsimp only
  rw [if_neg (by decide), if_neg (by decide), if_neg (by decide), if_neg (by decide),
    if_neg (by decide), if_neg (by decide), if_pos rfl]
  exact .after (reads_skip _) (hinner.mono fun _ _ ↦ trivial)

theorem IsSkipped.object (h : IsSkipped (.members true ms) bs) :
    IsSkipped (.value (.object ms)) (byte '\x7b' :: bs ++ [byte '\x7d']) := by
  intro ws steps around hws hsteps
  simp only [List.cons_append, List.length_cons, List.length_append, List.length_nil] at hsteps ⊢
  obtain ⟨steps, rfl⟩ := Nat.exists_eq_add_one.2 (Nat.zero_lt_of_lt hsteps)
  obtain ⟨left, hleft, hinner⟩ := h steps around (by omega)
  refine ⟨left, by omega, ?_⟩
  rw [skipWithin]
  refine .beginning (b := byte '\x7b') hws (by decide) ?_
  dsimp only
  rw [if_neg (by decide), if_neg (by decide), if_neg (by decide), if_neg (by decide),
    if_neg (by decide), if_neg (by decide), if_neg (by decide), if_pos rfl]
  exact .after (reads_skip _) (hinner.mono fun _ _ ↦ trivial)

theorem isSkipped_noItem (hws : Blanks ws) : IsSkipped (.items first []) ws :=
  fun steps _ _ ↦ ⟨steps, Nat.le_add_right _ _, (becomes_skipEnds .list _ hws).bind _⟩

theorem isSkipped_noMember (hws : Blanks ws) : IsSkipped (.members first []) ws :=
  fun steps _ _ ↦ ⟨steps, Nat.le_add_right _ _, (becomes_skipEnds .object _ hws).bind _⟩

theorem IsSkipped.item (hlead : Lead first lead) (h : Spells (.value v) bs)
    (h' : Spells (.items false vs) rest) (hvalue : IsSkipped (.value v) bs)
    (hrest : IsSkipped (.items false vs) rest) :
    IsSkipped (.items first (v :: vs)) (lead ++ bs ++ rest) := by
  intro steps around hsteps
  obtain ⟨b, tail, hbs, hb, hend⟩ := head_of_value h
  obtain ⟨lead', ws, rfl, hws, hends⟩ := reads_skipEnds .list around hlead hb hend
  simp only [List.length_append] at hsteps ⊢
  -- The blanks behind a comma are gone past with the value.
  obtain ⟨mid, hmid, hskip⟩ := hvalue ws steps (.list :: around) hws (by omega)
  obtain ⟨left, hleft, hskip'⟩ := hrest mid around (by omega)
  refine ⟨left, by omega, ?_⟩
  have hbytes : lead' ++ ws ++ bs ++ rest ++ [byte ']'] =
      lead' ++ (ws ++ bs ++ (rest ++ [byte ']'])) := by simp
  rw [hbytes]
  refine hends.becomes.trans (hskip.trans hskip' fun tail _ ↦ ?_) fun tail _ ↦ ?_
  · rw [List.append_assoc]
    exact ends_items h' rfl
  · simp [hbs]

theorem IsSkipped.member {name : String} {key ws' : Bytes} (hlead : Lead first lead)
    (hname : SpellsString name.toList key) (hws : Blanks ws) (hws' : Blanks ws')
    (h' : Spells (.members false ms) rest) (hvalue : IsSkipped (.value v) bs)
    (hrest : IsSkipped (.members false ms) rest) :
    IsSkipped (.members first ((name, v) :: ms))
      (lead ++ byte '"' :: key ++ (ws ++ byte ':' :: ws') ++ bs ++ rest) := by
  intro steps around hsteps
  obtain ⟨lead', blanks, rfl, hblanks, hends⟩ :=
    reads_skipEnds (b := byte '"') .object around hlead (by decide) (by decide)
  simp only [List.length_append, List.length_cons] at hsteps ⊢
  obtain ⟨mid, hmid, hskip⟩ := hvalue ws' steps (.object :: around) hws' (by omega)
  obtain ⟨left, hleft, hskip'⟩ := hrest mid around (by omega)
  refine ⟨left, by omega, ?_⟩
  have hkey := reads_skipKey hblanks hname hws (show key.length ≤ steps by omega)
  have hbytes : lead' ++ blanks ++ byte '"' :: key ++ (ws ++ byte ':' :: ws') ++ bs ++ rest ++
      [byte '\x7d'] = lead' ++ (blanks ++ byte '"' :: key ++ (ws ++ [byte ':']) ++
        (ws' ++ bs ++ (rest ++ [byte '\x7d']))) := by simp
  rw [hbytes]
  refine hends.becomes.trans (.after hkey (hskip.trans hskip' fun tail _ ↦ ?_)) fun tail _ ↦ ?_
  · rw [List.append_assoc]
    exact ends_members h' rfl
  · simp

theorem isSkipped_of_spells (h : Spells part bs) : IsSkipped part bs := by
  induction h with
  | null => exact isSkipped_null
  | true => exact isSkipped_true
  | false => exact isSkipped_false
  | number h => exact isSkipped_number h
  | string h => exact isSkipped_string h
  | array _ ih => exact ih.array
  | object _ ih => exact ih.object
  | noItem hws => exact isSkipped_noItem hws
  | item hlead h h' ih ih' => exact .item hlead h h' ih ih'
  | noMember hws => exact isSkipped_noMember hws
  | member hlead hname hws hws' _ h' ih ih' => exact .member hlead hname hws hws' h' ih ih'

theorem reads_skipValue {steps : Nat} (h : Spells (.value v) bs) (hws : Blanks ws)
    (hsteps : bs.length ≤ steps) : Reads Ends (skipValue steps) (ws ++ bs) () := by
  obtain ⟨left, -, hskip⟩ := isSkipped_of_spells h ws steps [] hws hsteps
  exact hskip

end Parts

end Reader

end ReleaseTrain.Json
