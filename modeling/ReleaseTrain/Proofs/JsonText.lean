import ReleaseTrain.Json.Value

namespace ReleaseTrain.Json

open Text (Bytes)
open Reader (byte)

def Blanks (ws : Bytes) : Prop := ∀ b ∈ ws, b ∈ " \n\t\r".toList.map byte

inductive Lead : (first : Bool) → Bytes → Prop
  | first {ws : Bytes} : Blanks ws → Lead true ws
  | later {ws ws' : Bytes} : Blanks ws → Blanks ws' → Lead false (ws ++ byte ',' :: ws')

section Strings

def HexDigit (n : Nat) (b : UInt8) : Prop :=
  n < 10 ∧ b.toNat = 48 + n ∨ 10 ≤ n ∧ n < 16 ∧ (b.toNat = 87 + n ∨ b.toNat = 55 + n)

inductive Hex (n : Nat) : Bytes → Prop
  | mk {i j k l : Nat} {p q r s : UInt8} : HexDigit i p → HexDigit j q → HexDigit k r →
      HexDigit l s → n = 4096 * i + 256 * j + 16 * k + l → Hex n [p, q, r, s]

def shortEscapes : List (Char × Char) :=
  [('"', '"'), ('\\', '\\'), ('/', '/'), ('b', '\x08'), ('f', '\x0c'), ('n', '\n'), ('r', '\r'),
    ('t', '\t')]

/-- A character within a string: as it is, behind a backslash, or by its number, which takes two
halves where four digits do not hold it. -/
inductive SpellsChar : Char → Bytes → Prop
  | plain {c : Char} : 0x20 ≤ c.toNat → c ≠ '"' → c ≠ '\\' → SpellsChar c (String.utf8EncodeChar c)
  | short {letter c : Char} : (letter, c) ∈ shortEscapes →
      SpellsChar c [byte '\\', byte letter]
  | number {c : Char} {hex : Bytes} : Hex c.toNat hex →
      SpellsChar c (byte '\\' :: byte 'u' :: hex)
  | halves {c : Char} {n m : Nat} {hex hex' : Bytes} : n < 1024 → m < 1024 →
      c.toNat = 0x10000 + 1024 * n + m → Hex (0xD800 + n) hex → Hex (0xDC00 + m) hex' →
      SpellsChar c (byte '\\' :: byte 'u' :: hex ++ byte '\\' :: byte 'u' :: hex')

inductive SpellsString : List Char → Bytes → Prop
  | nil : SpellsString [] [byte '"']
  | cons {c : Char} {cs : List Char} {bs bs' : Bytes} : SpellsChar c bs → SpellsString cs bs' →
      SpellsString (c :: cs) (bs ++ bs')

end Strings

section Numbers

def IsDigit (b : UInt8) : Prop := 48 ≤ b.toNat ∧ b.toNat ≤ 57

def Digits (ds : Bytes) : Prop := ds ≠ [] ∧ ∀ d ∈ ds, IsDigit d

/-- Only the number zero begins with a zero. -/
inductive Whole : Bytes → Prop
  | zero : Whole [byte '0']
  | digits {d : UInt8} {ds : Bytes} : IsDigit d → d ≠ byte '0' → (∀ d ∈ ds, IsDigit d) →
      Whole (d :: ds)

inductive Fraction : Bytes → Prop
  | none : Fraction []
  | digits {ds : Bytes} : Digits ds → Fraction (byte '.' :: ds)

inductive Exponent : Bytes → Prop
  | none : Exponent []
  | digits {mark : UInt8} {sign ds : Bytes} : mark ∈ [byte 'e', byte 'E'] →
      sign ∈ [[], [byte '+'], [byte '-']] → Digits ds → Exponent (mark :: (sign ++ ds))

inductive Unsigned : Bytes → Prop
  | mk {whole fraction exponent : Bytes} : Whole whole → Fraction fraction → Exponent exponent →
      Unsigned (whole ++ (fraction ++ exponent))

inductive Number : Bytes → Prop
  | positive {bs : Bytes} : Unsigned bs → Number bs
  | negative {bs : Bytes} : Unsigned bs → Number (byte '-' :: bs)

end Numbers

inductive Part
  | value (v : Value)
  | items (first : Bool) (vs : List Value)
  | members (first : Bool) (ms : List (String × Value))

/-- The bytes that spell a part. Those of a value begin and end with its own, those within brackets
may begin and end with blanks. -/
inductive Spells : Part → Bytes → Prop
  | null : Spells (.value .null) (Text.encode "null")
  | true : Spells (.value (.boolean true)) (Text.encode "true")
  | false : Spells (.value (.boolean false)) (Text.encode "false")
  | number {text : String} : Number (Text.encode text) →
      Spells (.value (.number text)) (Text.encode text)
  | string {text : String} {bs : Bytes} : SpellsString text.toList bs →
      Spells (.value (.string text)) (byte '"' :: bs)
  | array {vs : List Value} {bs : Bytes} : Spells (.items true vs) bs →
      Spells (.value (.array vs)) (byte '[' :: bs ++ [byte ']'])
  | object {ms : List (String × Value)} {bs : Bytes} : Spells (.members true ms) bs →
      Spells (.value (.object ms)) (byte '{' :: bs ++ [byte '}'])
  | noItem {first : Bool} {ws : Bytes} : Blanks ws → Spells (.items first []) ws
  | item {first : Bool} {v : Value} {vs : List Value} {lead bs rest : Bytes} : Lead first lead →
      Spells (.value v) bs → Spells (.items false vs) rest →
      Spells (.items first (v :: vs)) (lead ++ bs ++ rest)
  | noMember {first : Bool} {ws : Bytes} : Blanks ws → Spells (.members first []) ws
  | member {first : Bool} {name : String} {v : Value} {ms : List (String × Value)}
      {lead key ws ws' bs rest : Bytes} : Lead first lead → SpellsString name.toList key →
      Blanks ws → Blanks ws' → Spells (.value v) bs → Spells (.members false ms) rest →
      Spells (.members first ((name, v) :: ms))
        (lead ++ byte '"' :: key ++ (ws ++ byte ':' :: ws') ++ bs ++ rest)

inductive SpellsText : Value → Bytes → Prop
  | mk {v : Value} {ws bs ws' : Bytes} : Blanks ws → Spells (.value v) bs → Blanks ws' →
      SpellsText v (ws ++ bs ++ ws')

end ReleaseTrain.Json
