import Mathlib.Data.Bool.AllAny
import ReleaseTrain.Proofs.JsonText
import ReleaseTrain.Proofs.TextReading

namespace ReleaseTrain.Json

open Text (Bytes)

namespace Reader

variable {α β : Type} {follow follow' : Bytes → Prop} {r : Reader α} {k : α → Reader β} {a : α}
  {c : β} {bs bs' ws : Bytes} {b : UInt8}

/-- Before a fitting rest, the reader takes in the bytes and makes `a` of them. -/
def Reads (follow : Bytes → Prop) (r : Reader α) (bs : Bytes) (a : α) : Prop :=
  ∀ rest index, follow rest → ∃ index', r ⟨bs ++ rest, index⟩ = .ok a ⟨rest, index'⟩

def Anything : Bytes → Prop := fun _ ↦ True

def Begins (b : UInt8) (bs : Bytes) : Prop := bs.head? = some b

theorem bind_of_ok {s s' : Cursor} (h : r s = .ok a s') : (r >>= k) s = k a s' := by
  change EStateM.bind r k s = _
  simp only [EStateM.bind, h]

theorem Reads.pure (a : α) : Reads follow (pure a) [] a := fun _ index _ ↦ ⟨index, rfl⟩

theorem Reads.afterPure (h : Reads follow (k a) bs c) : Reads follow (Pure.pure a >>= k) bs c := h

theorem Reads.bind (h : Reads follow r bs a) (hk : Reads follow' (k a) bs' c)
    (hfollow : ∀ rest, follow' rest → follow (bs' ++ rest)) :
    Reads follow' (r >>= k) (bs ++ bs') c := by
  intro rest index hrest
  obtain ⟨i, hr⟩ := h (bs' ++ rest) index (hfollow rest hrest)
  obtain ⟨j, hj⟩ := hk rest i hrest
  rw [List.append_assoc]
  exact ⟨j, (bind_of_ok hr).trans hj⟩

theorem Reads.andThen (h : Reads Anything r bs a) (hk : Reads follow (k a) bs' c) :
    Reads follow (r >>= k) (bs ++ bs') c := h.bind hk fun _ _ ↦ trivial

theorem Reads.finish (h : Reads follow r bs a) (hk : Reads follow (k a) [] c) :
    Reads follow (r >>= k) bs c := by
  have hbind := h.bind hk fun _ h ↦ h
  rwa [List.append_nil] at hbind

theorem Reads.mono (h : Reads follow r bs a) (hfollow : ∀ rest, follow' rest → follow rest) :
    Reads follow' r bs a := fun rest index hrest ↦ h rest index (hfollow rest hrest)

theorem Reads.anywhere (h : Reads Anything r bs a) : Reads follow r bs a :=
  h.mono fun _ _ ↦ trivial

theorem Reads.placed (h : Reads follow r bs a) : Reads follow (placed r) bs a := by
  intro rest index hrest
  obtain ⟨i, hr⟩ := h rest index hrest
  refine ⟨i, ?_⟩
  unfold Reader.placed
  rw [hr]

theorem Reads.enclosed {ending : Reader Unit} (h : Reads follow r bs a)
    (hending : Reads follow' ending bs' ())
    (hfollow : ∀ rest, follow' rest → follow (bs' ++ rest)) :
    Reads follow' (enclosed r ending) (bs ++ bs') a := by
  intro rest index hrest
  obtain ⟨i, hr⟩ := h (bs' ++ rest) index (hfollow rest hrest)
  obtain ⟨j, hj⟩ := hending rest i hrest
  refine ⟨j, ?_⟩
  unfold Reader.enclosed
  rw [List.append_assoc, hr]
  dsimp only
  rw [hj]

section Words

theorem reads_skip (b : UInt8) : Reads Anything skip [b] () := fun _ index _ ↦ ⟨index + 1, rfl⟩

theorem reads_next (b : UInt8) : Reads Anything next [b] (some b) :=
  fun _ index _ ↦ ⟨index + 1, rfl⟩

theorem Reads.afterSkip {k : Unit → Reader β} (h : Reads follow (k ()) bs c) :
    Reads follow (skip >>= k) (b :: bs) c := (reads_skip b).andThen h

theorem Reads.afterNext {k : Option UInt8 → Reader β} (h : Reads follow (k (some b)) bs c) :
    Reads follow (next >>= k) (b :: bs) c := (reads_next b).andThen h

theorem Reads.afterPeek {k : Option UInt8 → Reader β} (h : Reads follow (k (some b)) (b :: bs) c) :
    Reads follow (peek >>= k) (b :: bs) c := h

theorem reads_ident (bs : Bytes) : Reads Anything (ident bs) bs () := by
  induction bs with
  | nil => exact .pure ()
  | cons b bs ih =>
    refine .afterNext ?_
    dsimp only
    rw [if_pos rfl]
    exact ih

theorem reads_nullRest : Reads Anything nullRest [117, 108, 108] () := reads_ident _

theorem reads_trueRest : Reads Anything trueRest [114, 117, 101] () := reads_ident _

theorem reads_falseRest : Reads Anything falseRest [97, 108, 115, 101] () := reads_ident _

theorem isSpace_of_mem (h : Blanks ws) (hb : b ∈ ws) : isSpace b = true := by
  have hspaces : ∀ b ∈ " \n\t\r".toList.map byte, isSpace b = true :=
    List.all_iff_forall_prop.1 (by decide)
  exact hspaces b (h b hb)

theorem peekPastSpace_append {rest : Bytes} (h : Blanks ws)
    (hrest : rest.dropWhile isSpace = rest) (index : Nat) :
    ∃ index', peekPastSpace ⟨ws ++ rest, index⟩ = .ok rest.head? ⟨rest, index'⟩ := by
  have hdrop : (ws ++ rest).dropWhile isSpace = rest := by
    rw [List.dropWhile_append_of_pos fun _ ↦ isSpace_of_mem h, hrest]
  refine ⟨index + ((ws ++ rest).length - rest.length), ?_⟩
  change EStateM.Result.ok ((ws ++ rest).dropWhile isSpace).head?
    (Cursor.mk ((ws ++ rest).dropWhile isSpace) _) = _
  rw [hdrop]

theorem reads_blanks (h : Blanks ws) (hb : isSpace b = false) :
    Reads (Begins b) peekPastSpace ws (some b) := by
  intro rest index hrest
  obtain ⟨rest, rfl⟩ : ∃ tail, rest = b :: tail := List.head?_eq_some_iff.1 hrest
  exact peekPastSpace_append h (List.dropWhile_cons_of_neg (by simp [hb])) index

theorem reads_ending (h : Blanks ws) : Reads (· = []) ending ws () := by
  rintro rest index rfl
  obtain ⟨stop, hstop⟩ := peekPastSpace_append h List.dropWhile_nil index
  exact ⟨stop, bind_of_ok hstop⟩

theorem reads_beginValue (h : Blanks ws) (hb : isSpace b = false) :
    Reads (Begins b) beginValue ws b :=
  (reads_blanks h hb).finish (.pure b)

theorem Reads.beginning {k : UInt8 → Reader α} (hws : Blanks ws) (hb : isSpace b = false)
    (h : Reads follow (k b) (b :: bs) a) :
    Reads follow (Reader.placed (beginValue >>= k)) (ws ++ b :: bs) a :=
  ((reads_beginValue hws hb).bind h fun _ _ ↦ rfl).placed

end Words

section Strings

variable {n steps : Nat} {ch : Char} {cs : List Char}

theorem isDigit_iff : isDigit b = true ↔ IsDigit b := by
  simp [isDigit, IsDigit, UInt8.le_iff_toNat_le, byte]

theorem ne_of_isDigit {c : UInt8} (hb : IsDigit b) (hc : isDigit c = false) : b ≠ c := by
  rintro rfl
  exact Bool.false_ne_true (hc.symm.trans (isDigit_iff.2 hb))

theorem hexValue?_of_hexDigit (h : HexDigit n b) : hexValue? b = some n := by
  unfold hexValue?
  rcases h with ⟨hn, hb⟩ | ⟨hn, hn', hb⟩
  · rw [if_pos (isDigit_iff.2 ⟨by omega, by omega⟩), hb, Nat.add_sub_cancel_left]
  have hdigit : ¬isDigit b = true := fun h ↦ by
    have hle := (isDigit_iff.1 h).2
    omega
  rw [if_neg hdigit]
  rcases hb with hb | hb
  · have hlower : 97 ≤ b ∧ b ≤ 102 :=
      ⟨(by omega : 97 ≤ b.toNat), (by omega : b.toNat ≤ 102)⟩
    rw [if_pos hlower, hb, Nat.add_sub_cancel_left]
  · have hlower : ¬(97 ≤ b ∧ b ≤ 102) := fun h ↦ by
      have hle : 97 ≤ b.toNat := h.1
      omega
    have hupper : 65 ≤ b ∧ b ≤ 70 := ⟨(by omega : 65 ≤ b.toNat), (by omega : b.toNat ≤ 70)⟩
    rw [if_neg hlower, if_pos hupper, hb, Nat.add_sub_cancel_left]

theorem reads_hexEscape (h : Hex n bs) : Reads Anything hexEscape bs n := by
  obtain ⟨hp, hq, hr, hs, rfl⟩ := h
  intro rest index _
  refine ⟨index + 4, ?_⟩
  unfold hexEscape
  refine (bind_of_ok rfl).trans ?_
  dsimp only [List.cons_append, List.nil_append]
  refine (bind_of_ok rfl).trans ?_
  rw [hexValue?_of_hexDigit hp, hexValue?_of_hexDigit hq, hexValue?_of_hexDigit hr,
    hexValue?_of_hexDigit hs]
  rfl

theorem reads_expectAfterSurrogate (b : UInt8) :
    Reads Anything (expectAfterSurrogate b) [b] () := by
  intro rest index _
  refine ⟨index + 1, ?_⟩
  unfold expectAfterSurrogate
  refine (bind_of_ok rfl).trans ?_
  dsimp only [List.cons_append, List.head?_cons]
  refine (bind_of_ok rfl).trans ?_
  rw [if_pos rfl]
  rfl

theorem reads_unicodeEscape_number (h : Hex ch.toNat bs) :
    Reads Anything unicodeEscape bs ch := by
  have hvalid : ch.toNat < 55296 ∨ 57343 < ch.toNat ∧ ch.toNat < 1114112 := ch.valid
  unfold unicodeEscape
  refine (reads_hexEscape h).finish ?_
  dsimp only
  rw [if_neg (by omega), if_neg (by omega), Char.ofNat_toNat]
  exact .pure ch

theorem reads_unicodeEscape_halves {m : Nat} (hn : n < 1024) (hm : m < 1024)
    (hch : ch.toNat = 0x10000 + 1024 * n + m) (h : Hex (0xD800 + n) bs)
    (h' : Hex (0xDC00 + m) bs') :
    Reads Anything unicodeEscape (bs ++ byte '\\' :: byte 'u' :: bs') ch := by
  unfold unicodeEscape
  refine (reads_hexEscape h).andThen ?_
  dsimp only
  rw [if_neg (by omega), if_pos (by omega)]
  refine (reads_expectAfterSurrogate _).andThen ?_
  refine (reads_expectAfterSurrogate _).andThen ?_
  refine (reads_hexEscape h').finish ?_
  rw [if_neg (by omega)]
  have hchar : Char.ofNat (0x10000 + 1024 * (0xD800 + n - 0xD800) + (0xDC00 + m - 0xDC00)) =
      ch := by
    rw [Nat.add_sub_cancel_left, Nat.add_sub_cancel_left, ← hch, Char.ofNat_toNat]
  rw [hchar]
  exact .pure ch

theorem simpleEscape?_of_mem {letter : Char} (h : (letter, ch) ∈ shortEscapes) :
    simpleEscape? (byte letter) = some ch := by
  have hall : ∀ p ∈ shortEscapes, simpleEscape? (byte p.1) = some p.2 :=
    List.all_iff_forall_prop.1 (by decide)
  exact hall _ h

/-- A byte that stands in a string for itself. -/
def IsPlain (b : UInt8) : Prop := b ≠ byte '"' ∧ b ≠ byte '\\' ∧ ¬b < 0x20

theorem isPlain_of_mem (hch : 0x20 ≤ ch.toNat) (hquote : ch ≠ '"') (hslash : ch ≠ '\\')
    (hb : b ∈ String.utf8EncodeChar ch) : IsPlain b := by
  -- A byte below 128 is the whole code of its character, and no other byte is one of the three.
  rcases Nat.lt_or_ge b.toNat 128 with hshort | hlong
  · have hcode : ch.toNat = b.toNat := (Text.mem_utf8EncodeChar hshort hb).2
    refine ⟨?_, ?_, Nat.not_lt.2 (hcode ▸ hch : 0x20 ≤ b.toNat)⟩
    · rintro rfl
      exact hquote (Char.toNat_inj.1 hcode)
    · rintro rfl
      exact hslash (Char.toNat_inj.1 hcode)
  · refine ⟨?_, ?_, Nat.not_lt.2 (Nat.le_trans (by decide) hlong)⟩ <;> rintro rfl <;>
      exact absurd hlong (by decide)

theorem plain_or_escaped (h : SpellsChar ch bs) :
    bs = String.utf8EncodeChar ch ∧ (∀ b ∈ bs, IsPlain b) ∨
      ∃ escaped, bs = byte '\\' :: escaped := by
  cases h with
  | plain hch hquote hslash => exact .inl ⟨rfl, fun _ ↦ isPlain_of_mem hch hquote hslash⟩
  | short _ | number _ | halves _ _ _ _ _ => exact .inr ⟨_, rfl⟩

theorem reads_plain {text : Bytes} (hbs : ∀ b ∈ bs, IsPlain b)
    (h : Reads Anything (stringBytes steps) bs' text) :
    Reads Anything (stringBytes (bs.length + steps)) (bs ++ bs') (bs ++ text) := by
  induction bs with
  | nil => rwa [List.length_nil, Nat.zero_add]
  | cons b bs ih =>
    obtain ⟨hquote, hslash, hspace⟩ := hbs b List.mem_cons_self
    rw [List.length_cons, Nat.add_right_comm]
    refine .afterNext ?_
    dsimp only
    rw [if_neg hquote, if_neg hslash, if_neg hspace]
    exact (ih fun b hb ↦ hbs b (List.mem_cons_of_mem _ hb)).finish (.pure _)

theorem reads_escape (h : SpellsChar ch (byte '\\' :: bs)) : Reads Anything escape bs ch := by
  generalize hwhole : byte '\\' :: bs = whole at h
  unfold escape
  cases h with
  | plain hch hquote hslash =>
    have hplain := isPlain_of_mem hch hquote hslash (hwhole ▸ List.mem_cons_self)
    exact absurd rfl hplain.2.1
  | @short letter _ h =>
    cases hwhole
    refine (reads_next (byte letter)).finish ?_
    dsimp only
    rw [simpleEscape?_of_mem h]
    exact .pure ch
  | number h =>
    cases hwhole
    exact .afterNext (reads_unicodeEscape_number h)
  | halves hn hm hch h h' =>
    cases hwhole
    exact .afterNext (reads_unicodeEscape_halves hn hm hch h h')

theorem reads_escaped {text : Bytes} (hch : SpellsChar ch (byte '\\' :: bs))
    (h : Reads Anything (stringBytes steps) bs' text) :
    Reads Anything (stringBytes (steps + 1)) (byte '\\' :: bs ++ bs')
      (String.utf8EncodeChar ch ++ text) := by
  refine .afterNext ?_
  refine (reads_escape hch).andThen (h.finish ?_)
  have hcode : Text.encode ch.toString = String.utf8EncodeChar ch := by
    rw [Text.encode_eq, Char.toString_eq_singleton, String.toList_singleton, Text.encodeChars_cons,
      Text.encodeChars_nil, List.append_nil]
  rw [hcode]
  exact .pure _

theorem reads_stringBytes (h : SpellsString cs bs) (hsteps : bs.length ≤ steps) :
    Reads Anything (stringBytes steps) bs (Text.encodeChars cs) := by
  induction h generalizing steps with
  | nil =>
    obtain ⟨steps, rfl⟩ := Nat.exists_eq_add_one.2 hsteps
    exact (reads_next (byte '"')).finish (.pure [])
  | @cons ch cs bs bs' hchar _ ih =>
    rw [List.length_append] at hsteps
    rw [Text.encodeChars_cons]
    rcases plain_or_escaped hchar with ⟨rfl, hplain⟩ | ⟨escaped, rfl⟩
    · obtain ⟨left, rfl⟩ := Nat.exists_eq_add_of_le (Nat.le_of_add_right_le hsteps)
      exact reads_plain hplain (ih (Nat.le_of_add_le_add_left hsteps))
    · rw [List.length_cons] at hsteps
      obtain ⟨left, rfl⟩ := Nat.exists_eq_add_one.2 (show 0 < steps by omega)
      exact reads_escaped hchar (ih (by omega))

theorem reads_string {text : String} (h : SpellsString text.toList bs)
    (hsteps : bs.length ≤ steps) : Reads Anything (string steps) bs text := by
  refine (reads_stringBytes h hsteps).finish ?_
  have htext : Text.lossy (Text.encodeChars text.toList) = text := by
    rw [← Text.encode_eq, Text.lossy_encode]
  rw [htext]
  exact .pure text

end Strings

section Numbers

variable {k : Option UInt8 → Reader α}

/-- The bytes that may follow a value. -/
def enders : Bytes := ",]\x7d \n\t\r".toList.map byte

def Ends (bs : Bytes) : Prop := ∀ b, bs.head? = some b → b ∈ enders

theorem of_mem_enders (h : b ∈ enders) : isDigit b = false ∧ isExponentMark (some b) = false ∧
    b ≠ byte '.' ∧ b ≠ byte '+' ∧ b ≠ byte '-' := by
  have hall : ∀ b ∈ enders, isDigit b = false ∧ isExponentMark (some b) = false ∧
    b ≠ byte '.' ∧ b ≠ byte '+' ∧ b ≠ byte '-' := List.all_iff_forall_prop.1 (by decide)
  exact hall b h

/-- What follows a run of digits. -/
def NoDigit (bs : Bytes) : Prop := ∀ b, bs.head? = some b → isDigit b = false

theorem noDigit_of_ends (h : Ends bs) : NoDigit bs := fun b hb ↦ (of_mem_enders (h b hb)).1

theorem NoDigit.takeWhile_eq (h : NoDigit bs) : bs.takeWhile isDigit = [] := by
  cases bs with
  | nil => rfl
  | cons b bs => exact List.takeWhile_cons_of_neg (by simp [h b rfl])

theorem peek_of_ends (hnone : ∀ b ∈ enders, k (some b) = k none) (h : Ends bs) (index : Nat) :
    (peek >>= k) ⟨bs, index⟩ = k none ⟨bs, index⟩ := by
  cases bs with
  | nil => rfl
  | cons b bs => exact congrFun (hnone b (h b rfl)) _

/-- What the reader takes in of `bs` does not change if there is more behind a value that ends with
them. -/
def Confined (r : Reader α) (bs : Bytes) : Prop :=
  ∀ index a bs' index', r ⟨bs, index⟩ = .ok a ⟨bs', index'⟩ → ∀ rest, Ends rest →
    ∀ start, ∃ stop, r ⟨bs ++ rest, start⟩ = .ok a ⟨bs' ++ rest, stop⟩

theorem Confined.pure (a : α) (bs : Bytes) : Confined (pure a : Reader α) bs := by
  rintro index _ _ _ h rest - start
  cases h
  exact ⟨start, rfl⟩

theorem confined_fail (problem : Problem) (bs : Bytes) :
    Confined (fail problem : Reader α) bs := by
  rintro index _ _ _ h
  cases h

theorem confined_failAhead (problem : Problem) (bs : Bytes) :
    Confined (failAhead problem : Reader α) bs := by
  rintro index _ _ _ h
  cases h

theorem Confined.bind {r : Reader β} {k : β → Reader α} (h : Confined r bs)
    (hk : ∀ a bs, Confined (k a) bs) : Confined (r >>= k) bs := by
  intro index a bs' index' hrun rest hrest start
  cases hr : r ⟨bs, index⟩ with
  | error e s =>
    change EStateM.bind r k _ = _ at hrun
    simp only [EStateM.bind, hr] at hrun
    cases hrun
  | ok b s =>
    rw [bind_of_ok hr] at hrun
    obtain ⟨mid, hmid⟩ := h _ _ _ _ hr rest hrest start
    obtain ⟨stop, hstop⟩ := hk _ _ _ _ _ _ hrun rest hrest mid
    exact ⟨stop, (bind_of_ok hmid).trans hstop⟩

theorem confined_peek (hnone : ∀ b ∈ enders, k (some b) = k none) (hnil : Confined (k none) [])
    (hcons : ∀ b bs, Confined (k (some b)) (b :: bs)) (bs : Bytes) : Confined (peek >>= k) bs := by
  intro index a bs' index' hrun rest hrest start
  cases bs with
  | nil =>
    obtain ⟨stop, hstop⟩ := hnil _ _ _ _ hrun rest hrest start
    exact ⟨stop, (peek_of_ends hnone hrest start).trans hstop⟩
  | cons b bs => exact hcons b bs _ _ _ _ hrun rest hrest start

theorem confined_skip {k : Unit → Reader α} (h : Confined (k ()) bs) (b : UInt8) :
    Confined (skip >>= k) (b :: bs) :=
  fun _ _ _ _ hrun rest hrest _ ↦ h _ _ _ _ hrun rest hrest _

theorem confined_next {problem : Problem} (hnone : k none = fail problem)
    (hsome : ∀ b bs, Confined (k (some b)) bs) (bs : Bytes) : Confined (next >>= k) bs := by
  intro index a bs' index' hrun rest hrest start
  cases bs with
  | nil =>
    change k none _ = _ at hrun
    rw [hnone] at hrun
    cases hrun
  | cons b bs => exact hsome b bs _ _ _ _ hrun rest hrest _

theorem confined_digits (bs : Bytes) : Confined digits bs := by
  intro index ds bs' index' hrun rest hrest start
  cases hrun
  have htake : (bs ++ rest).takeWhile isDigit = bs.takeWhile isDigit := by
    rw [List.takeWhile_append, (noDigit_of_ends hrest).takeWhile_eq]
    split
    · next hlength =>
      rw [List.append_nil, (List.takeWhile_prefix isDigit).eq_of_length hlength]
    · rfl
  refine ⟨start + (bs.takeWhile isDigit).length, ?_⟩
  change EStateM.Result.ok _ (Cursor.mk _ _) = _
  rw [htake, List.drop_append_of_le_length (List.takeWhile_prefix isDigit).length_le]

theorem confined_checkRange (n : Nat) (e : Int) (bs : Bytes) : Confined (checkRange n e) bs := by
  unfold checkRange
  split
  · exact confined_fail _ _
  · exact .pure () _

/-- The end of `exponentDigits`, behind the sign. -/
def exponentEnd (negative : Bool) : Reader (Bool × Bytes) := do
  match ← next with
  | none => fail .eofWhileParsingValue
  | some d =>
    unless isDigit d do fail .invalidNumber
    return (negative, d :: (← digits))

theorem confined_exponentEnd (negative : Bool) (bs : Bytes) :
    Confined (exponentEnd negative) bs := by
  refine confined_next rfl (fun d bs ↦ ?_) bs
  dsimp only
  split
  · exact (confined_digits bs).bind fun ds bs ↦ .pure _ bs
  · exact (confined_fail _ bs).bind fun _ bs ↦ (confined_digits bs).bind fun ds bs ↦ .pure _ bs

theorem confined_exponentDigits (b : UInt8) (bs : Bytes) : Confined exponentDigits (b :: bs) := by
  unfold exponentDigits
  refine confined_skip (confined_peek ?_ (confined_exponentEnd false []) (fun c bs ↦ ?_) bs) b
  · intro c hc
    obtain ⟨-, -, -, hplus, hminus⟩ := of_mem_enders hc
    dsimp only
    rw [if_neg hplus, if_neg hminus]
  · dsimp only
    split
    · exact confined_skip (confined_exponentEnd false bs) c
    split
    · exact confined_skip (confined_exponentEnd true bs) c
    · exact confined_exponentEnd false (c :: bs)

theorem confined_scale (n : Nat) (e : Int) (bs : Bytes) : Confined (scale n e) bs := by
  unfold scale
  refine confined_peek (fun b hb ↦ ?_) (confined_checkRange n e []) (fun b bs ↦ ?_) bs
  · rw [(of_mem_enders hb).2.1]
    rfl
  split
  · refine (confined_exponentDigits b bs).bind fun ⟨negative, ds⟩ bs ↦ ?_
    dsimp only
    split
    · exact confined_checkRange _ _ _
    split
    · exact confined_fail _ _
    · exact .pure () _
  · exact confined_checkRange n e _

theorem confined_fraction (n m : Nat) (bs : Bytes) : Confined (fraction n m) bs := by
  have hwhole (bs : Bytes) : Confined (do
      if m ≠ 0 ∨ isExponentMark (← peek) then scale n m) bs := by
    refine confined_peek (fun b hb ↦ ?_) ?_ (fun b bs ↦ ?_) bs
    · rw [(of_mem_enders hb).2.1]
      rfl
    all_goals
      split
      · exact confined_scale n m _
      · exact .pure () _
  unfold fraction
  refine confined_peek (fun b hb ↦ ?_) (hwhole []) (fun b bs ↦ ?_) bs
  · have hdot : some b ≠ some (byte '.') := fun h ↦ (of_mem_enders hb).2.2.1 (Option.some.inj h)
    rw [if_neg hdot, if_neg (by simp)]
  split
  · refine confined_skip ((confined_digits bs).bind fun ds bs ↦ ?_) b
    dsimp only
    split
    -- No digit follows the point: a failure, whatever comes next.
    · rintro index _ _ _ hrun
      cases bs <;> cases hrun
    · exact confined_scale _ _ _
  · exact hwhole _

theorem confined_number (bs : Bytes) : Confined number bs := by
  unfold number
  refine confined_next rfl (fun b bs ↦ ?_) bs
  dsimp only
  split
  · refine confined_peek (fun b hb ↦ ?_) (confined_fraction 0 0 []) (fun b bs ↦ ?_) bs
    · rw [Option.map_some, (of_mem_enders hb).1]
      rfl
    split
    · exact (confined_failAhead _ _).bind fun _ bs ↦ confined_fraction 0 0 bs
    · exact confined_fraction 0 0 _
  split
  · refine (confined_digits bs).bind fun ds bs ↦ ?_
    exact confined_fraction _ _ bs
  · exact confined_fail _ bs

theorem textOf_eq_ok_iff {r : Reader Unit} {s s' : Cursor} {text : String} :
    textOf r s = .ok text s' ↔
      r s = .ok () s' ∧ Text.lossy (s.rest.take (s.rest.length - s'.rest.length)) = text := by
  change EStateM.bind r _ s = _ ↔ _
  unfold EStateM.bind
  cases r s with
  | error e s'' => exact ⟨fun h ↦ (by cases h), fun h ↦ (by cases h.1)⟩
  | ok _ s'' =>
    constructor
    · intro h
      cases h
      exact ⟨rfl, rfl⟩
    · rintro ⟨h, rfl⟩
      cases h
      rfl

theorem Reads.textOf {r : Reader Unit} {text : String} (h : Reads follow r (Text.encode text) ()) :
    Reads follow (textOf r) (Text.encode text) text := by
  intro rest index hrest
  obtain ⟨stop, hstop⟩ := h rest index hrest
  refine ⟨stop, textOf_eq_ok_iff.2 ⟨hstop, ?_⟩⟩
  rw [List.length_append, Nat.add_sub_cancel, List.take_left, Text.lossy_encode]

/-- A number that is not too large to be read. -/
def Held (text : String) : Prop :=
  ∃ index, numberText ⟨Text.encode text, 0⟩ = .ok text ⟨[], index⟩

theorem reads_numberText {text : String} (h : Held text) :
    Reads Ends numberText (Text.encode text) text := by
  obtain ⟨index, h⟩ := h
  refine Reads.textOf fun rest start hrest ↦ ?_
  refine confined_peek (fun b hb ↦ ?_) (confined_number []) (fun b bs ↦ ?_) _ _ _ _ _
    (textOf_eq_ok_iff.1 h).1 rest hrest start
  · have hminus : some b ≠ some (byte '-') :=
      fun h ↦ (of_mem_enders hb).2.2.2.2 (Option.some.inj h)
    rw [if_neg hminus, if_neg (by simp)]
  split
  · exact confined_skip (confined_number bs) b
  · exact confined_number _

end Numbers

end Reader

end ReleaseTrain.Json
