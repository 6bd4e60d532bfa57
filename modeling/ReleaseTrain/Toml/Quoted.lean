import ReleaseTrain.Toml.Failure

/-!
The four quoted forms of a string: basic with escapes or literal, on one line or several. Each
reader starts after the opening quotes and returns the text and what follows the closing quotes.
-/

namespace ReleaseTrain.Toml

abbrev Reading (α : Type) := Except Failure (α × List Char)

/-- No control character stands in a document but the tab; line ends are read apart. -/
def isAllowed (c : Char) : Bool := c == '\t' || (0x20 ≤ c.toNat && c.toNat != 0x7F)

def isSpace (c : Char) : Bool := c == ' ' || c == '\t'

def hexDigit? (c : Char) : Option Nat :=
  if c.isDigit then some (c.toNat - '0'.toNat)
  else if 'a' ≤ c ∧ c ≤ 'f' then some (c.toNat - 'a'.toNat + 10)
  else if 'A' ≤ c ∧ c ≤ 'F' then some (c.toNat - 'A'.toNat + 10)
  else none

def hexNumber? (cs : List Char) : Option Nat :=
  cs.foldlM (fun n c ↦ (hexDigit? c).map (16 * n + ·)) 0

/-- The character of a code point, unless it is a surrogate or beyond the last one. -/
def scalarValue? (n : Nat) : Option Char :=
  if h : n.isValidChar then some (.ofNatAux n h) else none

def simpleEscape? : Char → Option Char
  | 'b' => some '\x08'
  | 't' => some '\t'
  | 'n' => some '\n'
  | 'f' => some '\x0c'
  | 'r' => some '\r'
  | 'e' => some '\x1b'
  | '"' => some '"'
  | '\\' => some '\\'
  | _ => none

def hexEscapeLength? : Char → Option Nat
  | 'x' => some 2
  | 'u' => some 4
  | 'U' => some 8
  | _ => none

/-- The character that an escape stands for, from what follows the backslash, and how many
characters the escape has. -/
def escape? : List Char → Option (Char × Nat)
  | [] => none
  | c :: cs =>
    match simpleEscape? c, hexEscapeLength? c with
    | some d, _ => some (d, 1)
    | none, some n =>
      if (cs.take n).length = n then
        ((hexNumber? (cs.take n)).bind scalarValue?).map fun d ↦ (d, n + 1)
      else none
    | none, none => none

def basic (cs : List Char) (text : List Char) : Reading String :=
  match cs with
  | [] => .error (.malformed "a closing quote")
  | '"' :: rest => .ok (.ofList text.reverse, rest)
  | '\\' :: rest =>
    match escape? rest with
    | some (c, n) => basic (rest.drop n) (c :: text)
    | none => .error (.malformed "an escape")
  | c :: rest =>
    if isAllowed c then basic rest (c :: text) else .error (.malformed "a closing quote")
termination_by cs.length
decreasing_by all_goals simp only [List.length_drop, List.length_cons]; omega

def literal : List Char → List Char → Reading String
  | [], _ => .error (.malformed "a closing quote")
  | c :: rest, text =>
    if c = '\x27' then .ok (.ofList text.reverse, rest)
    else if isAllowed c then literal rest (c :: text)
    else .error (.malformed "a closing quote")

/-- A line end right after the opening quotes is no part of the text. -/
def withoutFirstLineEnd : List Char → List Char
  | '\n' :: cs => cs
  | '\r' :: '\n' :: cs => cs
  | cs => cs

/-- Three quotes end a text of several lines; one or two more just before them belong to it. -/
def closing? (quote : Char) (cs : List Char) : Option (List Char × List Char) :=
  let run := (cs.takeWhile (· == quote)).length
  if run < 3 then none
  else
    let extra := min 2 (run - 3)
    some (List.replicate extra quote, cs.drop (3 + extra))

def literalLines (cs : List Char) (text : List Char) : Reading String :=
  match closing? '\x27' cs, cs with
  | some (extra, rest), _ => .ok (.ofList (text.reverse ++ extra), rest)
  | none, [] => .error (.malformed "three closing quotes")
  | none, '\r' :: '\n' :: rest => literalLines rest ('\n' :: '\r' :: text)
  | none, c :: rest =>
    if isAllowed c || c == '\n' then literalLines rest (c :: text)
    else .error (.malformed "three closing quotes")

/-- After a backslash at the end of a line, blanks and line ends up to the next other character
are no part of the text. -/
def afterLineBreak? (cs : List Char) : Option (List Char) :=
  match cs.dropWhile isSpace with
  | '\n' :: rest => some (skip rest)
  | '\r' :: '\n' :: rest => some (skip rest)
  | _ => none
where
  skip : List Char → List Char
    | '\r' :: '\n' :: rest => skip rest
    | c :: rest => if isSpace c || c == '\n' then skip rest else c :: rest
    | [] => []

theorem afterLineBreak?.skip_length_le (cs : List Char) : (skip cs).length ≤ cs.length := by
  fun_induction skip cs with
  | case1 rest ih => simp only [List.length_cons]; omega
  | case2 c rest h hc ih => simp only [List.length_cons]; omega
  | case3 c rest h hc => exact Nat.le_refl _
  | case4 => exact Nat.le_refl _

theorem length_dropWhile_le {α : Type} (p : α → Bool) (l : List α) :
    (l.dropWhile p).length ≤ l.length := (List.dropWhile_suffix p).length_le

theorem afterLineBreak?_length_le {cs rest : List Char} (h : afterLineBreak? cs = some rest) :
    rest.length ≤ cs.length := by
  have hd := length_dropWhile_le isSpace cs
  unfold afterLineBreak? at h
  split at h
  · rename_i r hr
    have hs := afterLineBreak?.skip_length_le r
    rw [hr, List.length_cons] at hd
    obtain rfl := Option.some.inj h
    omega
  · rename_i r hr
    have hs := afterLineBreak?.skip_length_le r
    rw [hr, List.length_cons, List.length_cons] at hd
    obtain rfl := Option.some.inj h
    omega
  · cases h

def basicLines (cs : List Char) (text : List Char) : Reading String :=
  match closing? '"' cs, cs with
  | some (extra, rest), _ => .ok (.ofList (text.reverse ++ extra), rest)
  | none, [] => .error (.malformed "three closing quotes")
  | none, '\\' :: rest =>
    match _hafter : afterLineBreak? rest with
    | some after => basicLines after text
    | none =>
      match escape? rest with
      | some (c, n) => basicLines (rest.drop n) (c :: text)
      | none => .error (.malformed "an escape")
  | none, '\r' :: '\n' :: rest => basicLines rest ('\n' :: '\r' :: text)
  | none, c :: rest =>
    if isAllowed c || c == '\n' then basicLines rest (c :: text)
    else .error (.malformed "three closing quotes")
termination_by cs.length
decreasing_by
  · have := afterLineBreak?_length_le _hafter
    simp_wf
    omega
  all_goals simp only [List.length_drop, List.length_cons]; omega

def quoted? : List Char → Option (Reading String)
  | '"' :: '"' :: '"' :: cs => some (basicLines (withoutFirstLineEnd cs) [])
  | '\x27' :: '\x27' :: '\x27' :: cs => some (literalLines (withoutFirstLineEnd cs) [])
  | '"' :: cs => some (basic cs [])
  | '\x27' :: cs => some (literal cs [])
  | _ => none

end ReleaseTrain.Toml
