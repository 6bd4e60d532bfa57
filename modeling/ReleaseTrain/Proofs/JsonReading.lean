import ReleaseTrain.Proofs.JsonWords

namespace ReleaseTrain.Json

open Text (Bytes)

namespace Reader

variable {bs ws : Bytes} {b : UInt8}

section Parts

variable {first : Bool} {lead : Bytes} {steps : Nat}

theorem reads_moreItems (h : Lead first lead) (hb : isSpace b = false) (hend : b ≠ byte ']') :
    Reads (Begins b) (moreItems first) lead true := by
  unfold moreItems
  cases h with
  | first hws =>
    refine (reads_blanks hws hb).finish ?_
    dsimp only
    rw [if_neg hend]
    exact .pure true
  | later hws hws' =>
    refine (reads_blanks hws (by decide : isSpace (byte ',') = false)).bind ?_ fun _ _ ↦ rfl
    dsimp only
    rw [if_neg (by decide), if_neg (by decide), if_pos rfl]
    refine .afterSkip ((reads_blanks hws' hb).finish ?_)
    dsimp only
    rw [if_neg hend]
    exact .pure true

theorem reads_noMoreItems (hws : Blanks ws) :
    Reads (Begins (byte ']')) (moreItems first) ws false := by
  refine (reads_blanks hws (by decide)).finish ?_
  dsimp only
  rw [if_pos rfl]
  exact .pure false

theorem reads_moreMembers (h : Lead first lead) :
    Reads (Begins (byte '"')) (moreMembers first) lead true := by
  unfold moreMembers
  have hquote : isSpace (byte '"') = false := by decide
  cases h with
  | first hws =>
    refine (reads_blanks hws hquote).finish ?_
    dsimp only
    rw [if_neg (by decide), if_pos rfl, if_pos rfl]
    exact .pure true
  | later hws hws' =>
    refine (reads_blanks hws (by decide : isSpace (byte ',') = false)).bind ?_ fun _ _ ↦ rfl
    dsimp only
    rw [if_neg (by decide), if_neg (by decide), if_pos rfl]
    refine .afterSkip ((reads_blanks hws' hquote).finish ?_)
    dsimp only
    rw [if_pos rfl]
    exact .pure true

theorem reads_noMoreMembers (hws : Blanks ws) :
    Reads (Begins (byte '\x7d')) (moreMembers first) ws false := by
  refine (reads_blanks hws (by decide)).finish ?_
  dsimp only
  rw [if_pos rfl]
  exact .pure false

theorem reads_colon (hws : Blanks ws) : Reads Anything colon (ws ++ [byte ':']) () := by
  refine (reads_blanks hws (by decide : isSpace (byte ':') = false)).bind ?_ fun _ _ ↦ rfl
  dsimp only
  rw [if_pos rfl]
  exact reads_skip _

theorem reads_key {name : String} (h : SpellsString name.toList bs) (hsteps : bs.length ≤ steps) :
    Reads Anything (key steps) (byte '"' :: bs) name :=
  (reads_skip _).andThen (reads_string h hsteps)

theorem blanks_nil : Blanks [] := fun _ h ↦ absurd h List.not_mem_nil

theorem reads_endList : Reads Anything endList [byte ']'] () := by
  refine (reads_blanks blanks_nil (by decide : isSpace (byte ']') = false)).bind ?_ fun _ _ ↦ rfl
  dsimp only
  rw [if_pos rfl]
  exact reads_skip _

theorem reads_endObject : Reads Anything endObject [byte '\x7d'] () := by
  refine (reads_blanks blanks_nil (by decide : isSpace (byte '\x7d') = false)).bind ?_ fun _ _ ↦ rfl
  dsimp only
  rw [if_pos rfl]
  exact reads_skip _

end Parts

end Reader

/-- Numbers are not too large to be read, and brackets nest at most `d` deep. -/
inductive Value.Within : Nat → Value → Prop
  | null {d : Nat} : Within d .null
  | boolean {d : Nat} (b : Bool) : Within d (.boolean b)
  | number {d : Nat} {text : String} : Reader.Held text → Within d (.number text)
  | string {d : Nat} (text : String) : Within d (.string text)
  | array {d : Nat} {vs : List Value} : (∀ v ∈ vs, Within d v) → Within (d + 1) (.array vs)
  | object {d : Nat} {ms : List (String × Value)} : (∀ m ∈ ms, Within d m.2) →
      Within (d + 1) (.object ms)

namespace Reader

variable {ws bs rest lead : Bytes} {b : UInt8} {first : Bool} {v : Value} {vs : List Value}
  {ms : List (String × Value)} {part : Part}

theorem head_of_unsigned (h : Unsigned bs) : ∃ d tail, bs = d :: tail ∧ IsDigit d := by
  obtain ⟨hwhole, -, -⟩ := h
  cases hwhole with
  | zero => exact ⟨_, _, rfl, by decide, by decide⟩
  | digits hd _ _ => exact ⟨_, _, rfl, hd⟩

theorem head_of_number (h : Number bs) :
    ∃ b tail, bs = b :: tail ∧ (b = byte '-' ∨ IsDigit b) := by
  cases h with
  | negative _ => exact ⟨_, _, rfl, .inl rfl⟩
  | positive h =>
    obtain ⟨d, tail, heq, hd⟩ := head_of_unsigned h
    exact ⟨d, tail, heq, .inr hd⟩

theorem head_byte (h : b = byte '-' ∨ IsDigit b) : isSpace b = false ∧ b ≠ byte ']' ∧
    b ≠ byte 'n' ∧ b ≠ byte 't' ∧ b ≠ byte 'f' ∧ (b = byte '-' ∨ isDigit b = true) := by
  rcases h with rfl | hb
  · decide
  have hne {c : UInt8} (hc : isDigit c = false) : b ≠ c := ne_of_isDigit hb hc
  refine ⟨?_, hne rfl, hne rfl, hne rfl, hne rfl, .inr (isDigit_iff.2 hb)⟩
  simp [isSpace, hne (c := 0x20) rfl, hne (c := 0x0A) rfl, hne (c := 0x09) rfl,
    hne (c := 0x0D) rfl]

theorem head_of_value (h : Spells (.value v) bs) :
    ∃ b tail, bs = b :: tail ∧ isSpace b = false ∧ b ≠ byte ']' := by
  cases h with
  | null | true | false => exact ⟨_, _, rfl, by decide, by decide⟩
  | string _ | array _ | object _ => exact ⟨_, _, rfl, by decide, by decide⟩
  | number h =>
    obtain ⟨b, tail, heq, hb⟩ := head_of_number h
    exact ⟨b, tail, heq, (head_byte hb).1, (head_byte hb).2.1⟩

theorem ends_of_begins (h : Begins b bs) (hb : b ∈ enders) : Ends bs := by
  intro c hc
  obtain rfl := Option.some.inj (h.symm.trans hc)
  exact hb

theorem ends_append (h : Blanks ws) (hrest : Ends rest) : Ends (ws ++ rest) := by
  have hall : ∀ b ∈ " \n\t\r".toList.map byte, b ∈ enders :=
    List.all_iff_forall_prop.1 (by decide)
  cases ws with
  | nil => exact hrest
  | cons b ws => exact ends_of_begins (b := b) rfl (hall b (h b List.mem_cons_self))

theorem ends_of_lead (h : Lead false lead) (rest : Bytes) : Ends (lead ++ rest) := by
  cases h with
  | later hws _ =>
    rw [List.append_assoc]
    exact ends_append hws (ends_of_begins (b := byte ',') rfl (by decide))

theorem ends_items (h : Spells (.items false vs) bs) (hrest : Begins (byte ']') rest) :
    Ends (bs ++ rest) := by
  cases h with
  | noItem hws => exact ends_append hws (ends_of_begins hrest (by decide))
  | item hlead _ _ =>
    rw [List.append_assoc, List.append_assoc]
    exact ends_of_lead hlead _

theorem ends_members (h : Spells (.members false ms) bs) (hrest : Begins (byte '\x7d') rest) :
    Ends (bs ++ rest) := by
  cases h with
  | noMember hws => exact ends_append hws (ends_of_begins hrest (by decide))
  | member hlead _ _ _ _ _ =>
    simp only [List.append_assoc]
    exact ends_of_lead hlead _

/-- What is read of a spelled part, with enough steps and depth. -/
def IsRead : Part → Bytes → Prop
  | .value v, bs => ∀ ws steps d, Blanks ws → bs.length + 1 ≤ steps → v.Within d →
      Reads Ends (value steps (d + 1)) (ws ++ bs) v
  | .items first vs, bs => ∀ steps d, bs.length + 2 ≤ steps → (∀ v ∈ vs, v.Within d) →
      Reads (Begins (byte ']')) (items steps (d + 1) first) bs vs
  | .members first ms, bs => ∀ steps d, bs.length + 2 ≤ steps → (∀ m ∈ ms, m.2.Within d) →
      Reads (Begins (byte '\x7d')) (members steps (d + 1) first) bs ms

theorem regroup_member (lead key ws ws' bs rest : Bytes) :
    lead ++ byte '"' :: key ++ (ws ++ byte ':' :: ws') ++ bs ++ rest =
      lead ++ (byte '"' :: key ++ (ws ++ [byte ':'] ++ (ws' ++ bs ++ rest))) := by
  simp

theorem encode_null : Text.encode "null" = byte 'n' :: [117, 108, 108] := by decide

theorem encode_true : Text.encode "true" = byte 't' :: [114, 117, 101] := by decide

theorem encode_false : Text.encode "false" = byte 'f' :: [97, 108, 115, 101] := by decide

theorem isRead_null : IsRead (.value .null) (Text.encode "null") := by
  intro ws steps d hws hsteps _
  obtain ⟨steps, rfl⟩ := Nat.exists_eq_add_one.2 (Nat.lt_of_add_left_lt hsteps)
  rw [value, encode_null]
  refine .beginning hws (by decide) ?_
  dsimp only
  rw [if_pos rfl]
  exact .afterSkip (reads_nullRest.anywhere.finish (.pure _))

theorem isRead_true : IsRead (.value (.boolean true)) (Text.encode "true") := by
  intro ws steps d hws hsteps _
  obtain ⟨steps, rfl⟩ := Nat.exists_eq_add_one.2 (Nat.lt_of_add_left_lt hsteps)
  rw [value, encode_true]
  refine .beginning hws (by decide) ?_
  dsimp only
  rw [if_neg (by decide), if_pos rfl]
  exact .afterSkip (reads_trueRest.anywhere.finish (.pure _))

theorem isRead_false : IsRead (.value (.boolean false)) (Text.encode "false") := by
  intro ws steps d hws hsteps _
  obtain ⟨steps, rfl⟩ := Nat.exists_eq_add_one.2 (Nat.lt_of_add_left_lt hsteps)
  rw [value, encode_false]
  refine .beginning hws (by decide) ?_
  dsimp only
  rw [if_neg (by decide), if_neg (by decide), if_pos rfl]
  exact .afterSkip (reads_falseRest.anywhere.finish (.pure _))

theorem isRead_number {text : String} (h : Number (Text.encode text)) :
    IsRead (.value (.number text)) (Text.encode text) := by
  intro ws steps d hws hsteps hwithin
  obtain ⟨steps, rfl⟩ := Nat.exists_eq_add_one.2 (Nat.lt_of_add_left_lt hsteps)
  cases hwithin with | number hheld => _
  have hread := reads_numberText hheld
  obtain ⟨b, tail, heq, hb⟩ := head_of_number h
  obtain ⟨hspace, -, hn, ht, hf, hdigit⟩ := head_byte hb
  rw [heq] at hread ⊢
  rw [value]
  refine .beginning hws hspace ?_
  dsimp only
  rw [if_neg hn, if_neg ht, if_neg hf, if_pos hdigit]
  exact hread.finish (.pure _)

theorem isRead_string {text : String} (h : SpellsString text.toList bs) :
    IsRead (.value (.string text)) (byte '"' :: bs) := by
  intro ws steps d hws hsteps _
  obtain ⟨steps, rfl⟩ := Nat.exists_eq_add_one.2 (Nat.lt_of_add_left_lt hsteps)
  rw [value]
  refine .beginning (b := byte '"') hws (by decide) ?_
  dsimp only
  rw [if_neg (by decide), if_neg (by decide), if_neg (by decide), if_neg (by decide), if_pos rfl]
  rw [List.length_cons] at hsteps
  exact .afterSkip ((reads_string h (by omega)).anywhere.finish (.pure _))

theorem IsRead.array (h : IsRead (.items true vs) bs) :
    IsRead (.value (.array vs)) (byte '[' :: bs ++ [byte ']']) := by
  intro ws steps d hws hsteps hwithin
  obtain ⟨steps, rfl⟩ := Nat.exists_eq_add_one.2 (Nat.lt_of_add_left_lt hsteps)
  cases hwithin with | @array d _ hwithin => _
  rw [value]
  refine .beginning (b := byte '[') hws (by decide) ?_
  dsimp only
  rw [if_neg (by decide), if_neg (by decide), if_neg (by decide), if_neg (by decide),
    if_neg (by decide), if_pos rfl, if_neg (by omega)]
  simp only [List.cons_append, List.length_cons, List.length_append, List.length_nil] at hsteps
  refine .afterSkip (Reads.finish ?_ (.pure _))
  exact (h steps d (by omega) hwithin).enclosed reads_endList.anywhere fun _ _ ↦ rfl

theorem IsRead.object (h : IsRead (.members true ms) bs) :
    IsRead (.value (.object ms)) (byte '\x7b' :: bs ++ [byte '\x7d']) := by
  intro ws steps d hws hsteps hwithin
  obtain ⟨steps, rfl⟩ := Nat.exists_eq_add_one.2 (Nat.lt_of_add_left_lt hsteps)
  cases hwithin with | @object d _ hwithin => _
  rw [value]
  refine .beginning (b := byte '\x7b') hws (by decide) ?_
  dsimp only
  rw [if_neg (by decide), if_neg (by decide), if_neg (by decide), if_neg (by decide),
    if_neg (by decide), if_neg (by decide), if_pos rfl, if_neg (by omega)]
  simp only [List.cons_append, List.length_cons, List.length_append, List.length_nil] at hsteps
  refine .afterSkip (Reads.finish ?_ (.pure _))
  exact (h steps d (by omega) hwithin).enclosed reads_endObject.anywhere fun _ _ ↦ rfl

theorem isRead_noItem (hws : Blanks ws) : IsRead (.items first []) ws := by
  intro steps d hsteps _
  obtain ⟨steps, rfl⟩ := Nat.exists_eq_add_one.2 (Nat.lt_of_add_left_lt hsteps)
  rw [items]
  exact (reads_noMoreItems hws).finish (.pure [])

theorem IsRead.item (hlead : Lead first lead) (h : Spells (.value v) bs)
    (h' : Spells (.items false vs) rest) (hvalue : IsRead (.value v) bs)
    (hrest : IsRead (.items false vs) rest) :
    IsRead (.items first (v :: vs)) (lead ++ bs ++ rest) := by
  intro steps d hsteps hwithin
  obtain ⟨steps, rfl⟩ := Nat.exists_eq_add_one.2 (Nat.lt_of_add_left_lt hsteps)
  obtain ⟨b, tail, hbs, hb, hend⟩ := head_of_value h
  have hlength : bs.length = tail.length + 1 := by rw [hbs, List.length_cons]
  simp only [List.length_append] at hsteps
  have hread := hvalue [] steps d blanks_nil (by omega) (hwithin v List.mem_cons_self)
  have hread' := hrest steps d (by omega) fun v hv ↦ hwithin v (List.mem_cons_of_mem _ hv)
  rw [items, List.append_assoc]
  refine (reads_moreItems hlead hb hend).bind ?_ fun _ _ ↦ (by rw [hbs]; rfl)
  rw [if_pos rfl]
  exact hread.bind (hread'.finish (.pure _)) fun _ h ↦ ends_items h' h

theorem isRead_noMember (hws : Blanks ws) : IsRead (.members first []) ws := by
  intro steps d hsteps _
  obtain ⟨steps, rfl⟩ := Nat.exists_eq_add_one.2 (Nat.lt_of_add_left_lt hsteps)
  rw [members]
  exact (reads_noMoreMembers hws).finish (.pure [])

theorem IsRead.member {name : String} {key ws' : Bytes} (hlead : Lead first lead)
    (hname : SpellsString name.toList key) (hws : Blanks ws) (hws' : Blanks ws')
    (h' : Spells (.members false ms) rest) (hvalue : IsRead (.value v) bs)
    (hrest : IsRead (.members false ms) rest) :
    IsRead (.members first ((name, v) :: ms))
      (lead ++ byte '"' :: key ++ (ws ++ byte ':' :: ws') ++ bs ++ rest) := by
  intro steps d hsteps hwithin
  obtain ⟨steps, rfl⟩ := Nat.exists_eq_add_one.2 (Nat.lt_of_add_left_lt hsteps)
  simp only [List.length_append, List.length_cons] at hsteps
  have hread := hvalue ws' steps d hws' (by omega) (hwithin _ List.mem_cons_self)
  have hread' := hrest steps d (by omega) fun v hv ↦ hwithin v (List.mem_cons_of_mem _ hv)
  rw [members, regroup_member]
  refine (reads_moreMembers hlead).bind ?_ fun _ _ ↦ rfl
  rw [if_pos rfl]
  refine (reads_key hname (by omega)).andThen ((reads_colon hws).andThen ?_)
  exact hread.bind (hread'.finish (.pure _)) fun _ h ↦ ends_members h' h

theorem isRead_of_spells (h : Spells part bs) : IsRead part bs := by
  induction h with
  | null => exact isRead_null
  | true => exact isRead_true
  | false => exact isRead_false
  | number h => exact isRead_number h
  | string h => exact isRead_string h
  | array _ ih => exact ih.array
  | object _ ih => exact ih.object
  | noItem hws => exact isRead_noItem hws
  | item hlead h h' ih ih' => exact .item hlead h h' ih ih'
  | noMember hws => exact isRead_noMember hws
  | member hlead hname hws hws' _ h' ih ih' => exact .member hlead hname hws hws' h' ih ih'

end Reader

end ReleaseTrain.Json
