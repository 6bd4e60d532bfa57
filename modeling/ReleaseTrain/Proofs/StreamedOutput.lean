import ReleaseTrain.Machine
import ReleaseTrain.Proofs.Resolution
import ReleaseTrain.Proofs.TextReading

namespace ReleaseTrain

open Text (Bytes)

namespace Text

variable {bs : Bytes} {b : UInt8} {s : String}

theorem isSome_decode?_concat (hb : b.toNat < 128) :
    (decode? (bs ++ [b])).isSome = (decode? bs).isSome := by
  rw [Bool.eq_iff_iff, Option.isSome_iff_exists, Option.isSome_iff_exists]
  simp only [decode?_eq_some_iff]
  constructor
  · rintro ⟨s, hs⟩
    rw [encode_eq] at hs
    rcases List.eq_nil_or_concat s.toList with hnil | ⟨cs, c, hcs⟩
    · simp [hnil] at hs
    rw [List.concat_eq_append] at hcs
    rw [hcs, encodeChars_append, encodeChars_cons, encodeChars_nil, List.append_nil] at hs
    -- The last byte is one of the last character's, which has no other one then.
    have hmem : b ∈ String.utf8EncodeChar c := by
      have hlast := congrArg List.getLast? hs
      rw [List.getLast?_concat, List.getLast?_append,
        List.getLast?_eq_some_getLast String.utf8EncodeChar_ne_nil, Option.some_or] at hlast
      exact Option.some.inj hlast ▸ List.getLast_mem _
    rw [(mem_utf8EncodeChar hb hmem).1] at hs
    exact ⟨.ofList cs, (encode_ofList cs).trans (List.append_cancel_right hs)⟩
  · rintro ⟨s, rfl⟩
    refine ⟨s ++ .ofList [.ofNat b.toNat], ?_⟩
    have hvalid : b.toNat.isValidChar := .inl (by omega)
    have hchar : (Char.ofNat b.toNat).toNat = b.toNat := by
      rw [Char.ofNat, dif_pos hvalid]
      rfl
    rw [encode_append, encode_ofList, encodeChars_cons, encodeChars_nil, List.append_nil,
      utf8EncodeChar_eq, hchar, if_pos (by omega), UInt8.ofNat_toNat]

end Text

namespace ChildOutput

theorem Line.written_eq (l : Line) : ∃ tail, l.written = l.content ++ tail ∧
    (tail = [] ∨ tail = [newline] ∨ tail = [carriageReturn, newline]) := by
  unfold written content
  cases l.ended with
  | false => exact ⟨[], (List.append_nil _).symm, .inl rfl⟩
  | true =>
    by_cases hlast : l.bytes.getLast? = some carriageReturn
    · obtain ⟨bs, hbs⟩ := List.getLast?_eq_some_iff.1 hlast
      exact ⟨[carriageReturn, newline], by simp [hbs], .inr (.inr rfl)⟩
    · exact ⟨[newline], by simp [hlast], .inr (.inl rfl)⟩

theorem Line.text?_eq_some_iff {l : Line} {s : String} :
    l.text? = some s ↔ Text.encode s = l.content := by
  have hsome : (Text.decode? l.written).isSome = (Text.decode? l.content).isSome := by
    obtain ⟨tail, hwritten, rfl | rfl | rfl⟩ := l.written_eq
    · rw [hwritten, List.append_nil]
    · rw [hwritten, Text.isSome_decode?_concat (by decide)]
    · rw [hwritten, ← List.singleton_append, ← List.append_assoc,
        Text.isSome_decode?_concat (by decide), Text.isSome_decode?_concat (by decide)]
  rw [text?, hsome, ← Text.decode?_eq_some_iff]
  cases Text.decode? l.content <;> simp

/-- Some bytes fall into these lines: every line ends at its first newline, only the last one may
have none, and that one is not empty. -/
structure FallsInto (bytes : Bytes) (ls : List Line) : Prop where
  joined : ls.flatMap Line.written = bytes
  no_newline : ∀ l ∈ ls, newline ∉ l.bytes
  ended : ∀ l ∈ ls.dropLast, l.ended = true
  begun : ∀ l ∈ ls, l.ended = false → l.bytes ≠ []

theorem lines_cons (s : Stamped) (stream : Stream) :
    s.byte = newline ∧ lines (s :: stream) = ⟨[], s.time, true⟩ :: lines stream ∨
      s.byte ≠ newline ∧ (lines stream = [] ∧ lines (s :: stream) = [⟨[s.byte], s.time, false⟩] ∨
        ∃ l ls, lines stream = l :: ls ∧
          lines (s :: stream) = { l with bytes := s.byte :: l.bytes } :: ls) := by
  by_cases hs : s.byte = newline
  · exact .inl ⟨hs, by rw [lines, if_pos hs]⟩
  · refine .inr ⟨hs, ?_⟩
    rw [lines, if_neg hs]
    cases lines stream with
    | nil => exact .inl ⟨rfl, rfl⟩
    | cons l ls => exact .inr ⟨l, ls, rfl, rfl⟩

theorem fallsInto_lines (stream : Stream) : FallsInto (stream.map Stamped.byte) (lines stream) := by
  induction stream with
  | nil => exact ⟨rfl, nofun, nofun, nofun⟩
  | cons s stream ih =>
    have hjoined := written_lines (s :: stream)
    obtain ⟨-, hlines⟩ | ⟨hs, ⟨-, hlines⟩ | ⟨l, ls, hrest, hlines⟩⟩ := lines_cons s stream
    · rw [hlines] at hjoined ⊢
      refine ⟨hjoined, ?_, ?_, ?_⟩
      · exact List.forall_mem_cons.2 ⟨List.not_mem_nil, ih.no_newline⟩
      · intro l hl
        cases hstream : lines stream with
        | nil =>
          rw [hstream] at hl
          cases hl
        | cons l' ls =>
          rw [hstream, List.dropLast_cons_of_ne_nil (List.cons_ne_nil l' ls)] at hl
          rcases List.mem_cons.1 hl with rfl | hl
          · rfl
          · exact ih.ended l (hstream ▸ hl)
      · exact List.forall_mem_cons.2 ⟨nofun, ih.begun⟩
    · rw [hlines] at hjoined ⊢
      refine ⟨hjoined, ?_, nofun, ?_⟩
      · simpa using Ne.symm hs
      · simp
    · rw [hrest] at ih
      rw [hlines] at hjoined ⊢
      obtain ⟨hl, hls⟩ := List.forall_mem_cons.1 ih.no_newline
      refine ⟨hjoined, ?_, ?_, ?_⟩
      · refine List.forall_mem_cons.2 ⟨?_, hls⟩
        simpa using ⟨Ne.symm hs, hl⟩
      · have hended := ih.ended
        cases ls with
        | nil => exact nofun
        | cons l' ls =>
          obtain ⟨hl, hls⟩ := List.forall_mem_cons.1 hended
          exact List.forall_mem_cons.2 ⟨hl, hls⟩
      · refine List.forall_mem_cons.2 ⟨fun _ ↦ List.cons_ne_nil _ _, ?_⟩
        exact (List.forall_mem_cons.1 ih.begun).2

def Line.isText (l : Line) : Bool := l.text?.isSome

def texts (ls : List Line) : List String := ls.filterMap Line.text?

theorem texts_cons_of_isText {l : Line} (h : l.isText = true) (ls : List Line) :
    ∃ s, l.text? = some s ∧ texts (l :: ls) = s :: texts ls := by
  obtain ⟨s, hs⟩ := Option.isSome_iff_exists.1 h
  exact ⟨s, hs, List.filterMap_cons_some hs⟩

theorem text?_eq_none {l : Line} (h : l.isText = false) : l.text? = none :=
  Option.isSome_eq_false_iff.1 h |> Option.isNone_iff_eq_none.1

theorem texts_read (ls : List Line) :
    (read ls).map Prod.snd = texts (ls.takeWhile Line.isText) := by
  induction ls with
  | nil => rfl
  | cons l ls ih =>
    cases h : l.isText with
    | false =>
      rw [read, text?_eq_none h, List.takeWhile_cons, h]
      rfl
    | true =>
      obtain ⟨s, hs, htexts⟩ := texts_cons_of_isText h (ls.takeWhile Line.isText)
      rw [read, hs, List.takeWhile_cons, h, if_pos rfl, htexts, ← ih]
      rfl

def Cut (ls : List Line) : Prop :=
  ∃ before l after, ls = before ++ l :: after ∧ l.isText = false ∧ ∃ l' ∈ after, l'.isText = true

theorem cut_iff {ls : List Line} : Cut ls ↔ ∃ l ∈ ls.dropWhile Line.isText, l.isText = true := by
  constructor
  · rintro ⟨before, l, after, rfl, hl, l', hl', htext⟩
    refine ⟨l', ?_, htext⟩
    rw [List.dropWhile_append, List.dropWhile_cons_of_neg (by simp [hl])]
    split
    · exact List.mem_cons_of_mem l hl'
    · exact List.mem_append_right _ (List.mem_cons_of_mem l hl')
  · rintro ⟨l', hl', htext⟩
    cases hdrop : ls.dropWhile Line.isText with
    | nil =>
      rw [hdrop] at hl'
      cases hl'
    | cons l after =>
      have hl : l.isText = false := by
        have hhead := List.head?_dropWhile_not Line.isText ls
        rw [hdrop] at hhead
        exact hhead
      have hsplit : ls = ls.takeWhile Line.isText ++ l :: after := by
        rw [← hdrop, List.takeWhile_append_dropWhile]
      refine ⟨_, l, after, hsplit, hl, l', ?_, htext⟩
      rw [hdrop] at hl'
      refine (List.mem_cons.1 hl').resolve_left fun heq ↦ ?_
      rw [heq, hl] at htext
      cases htext

/-- Reading misses no text exactly if no text stands behind what is none. -/
theorem sublist_takeWhile_iff {ls : List Line} :
    (texts ls).Sublist (texts (ls.takeWhile Line.isText)) ↔ ¬Cut ls := by
  have hsplit : texts ls =
      texts (ls.takeWhile Line.isText) ++ texts (ls.dropWhile Line.isText) := by
    rw [texts, texts, texts, ← List.filterMap_append, List.takeWhile_append_dropWhile]
  have hmissed : (texts ls).Sublist (texts (ls.takeWhile Line.isText)) ↔
      texts (ls.dropWhile Line.isText) = [] := by
    rw [hsplit]
    constructor
    · intro h
      have hlength := h.length_le
      rw [List.length_append] at hlength
      exact List.length_eq_zero_iff.1 (by omega)
    · intro h
      simp [h]
  rw [hmissed, cut_iff, texts, List.filterMap_eq_nil_iff]
  simp [Line.isText]

/-- A list is made of two others, each in its own order. -/
inductive Interleaved {α : Type} : List α → List α → List α → Prop
  | nil : Interleaved [] [] []
  | left {xs ys zs : List α} (x : α) : Interleaved xs ys zs → Interleaved (x :: xs) ys (x :: zs)
  | right {xs ys zs : List α} (y : α) : Interleaved xs ys zs → Interleaved xs (y :: ys) (y :: zs)

namespace Interleaved

variable {α β : Type} {xs ys zs : List α}

theorem left_only (xs : List α) : Interleaved xs [] xs := by
  induction xs with
  | nil => exact .nil
  | cons x xs ih => exact .left x ih

theorem right_only (ys : List α) : Interleaved [] ys ys := by
  induction ys with
  | nil => exact .nil
  | cons y ys ih => exact .right y ih

theorem map (h : Interleaved xs ys zs) (f : α → β) :
    Interleaved (xs.map f) (ys.map f) (zs.map f) := by
  induction h with
  | nil => exact .nil
  | left x _ ih => exact .left (f x) ih
  | right y _ ih => exact .right (f y) ih

theorem merge (le : α → α → Bool) (xs ys : List α) : Interleaved xs ys (List.merge xs ys le) := by
  induction xs generalizing ys with
  | nil =>
    rw [List.nil_merge]
    exact right_only ys
  | cons x xs ihx =>
    induction ys with
    | nil =>
      rw [List.merge_right]
      exact left_only (x :: xs)
    | cons y ys ihy =>
      rw [List.cons_merge_cons]
      split
      · exact .left x (ihx (y :: ys))
      · exact .right y ihy

end Interleaved

end ChildOutput

namespace Machine

open ChildOutput
open Shell (State Written)

def course (m : Machine) (mode : Mode) (command : Invocation) (fs : FileSystem)
    (keys : Shell.Text) : Except String (Ending × State) := do
  let (path, executable) ← m.find fs command
  let input := match mode with
    | .captured => []
    | .interactive => keys
  return ending mode command.timeoutMs
    ((Shell.Run.launch Shell.Run.maxDepth (Shell.textOfBytes path) executable
      (Shell.textOfString command.program)
      (command.arguments.map Shell.textOfString)).run (m.initial mode command fs input))

def written (s : State) : List Written :=
  s.written.reverse.mergeSort fun a b ↦ a.time ≤ b.time

theorem execute_eq {m : Machine} {command : Invocation} {fs : FileSystem} {keys : Shell.Text}
    {outcome : Outcome} {s : State}
    (h : m.course .captured command fs keys = .ok (.outcome outcome, s)) :
    let x := m.execute .captured command fs keys
    x.result = .ok outcome ∧ x.reports = reports command (.outcome outcome) (written s) := by
  unfold course at h
  unfold execute
  cases hfind : m.find fs command with
  | error reason =>
    rw [hfind] at h
    cases h
  | ok found =>
    rw [hfind] at h
    have hend := Except.ok.inj h
    dsimp only at hend ⊢
    rw [hend]
    exact ⟨rfl, rfl⟩

/-- What was written is reported as it should be as long as it is text. The two streams are reported
side by side, nothing else with them. Of the lines that a stream falls into those are reported, each
once and in their order, that come before the first one that is no text. So all lines that are text
are reported exactly if no such line stands behind one that is none. -/
def Streamed (written : List Written) (reports : List Report) : Prop :=
  ∃ (reported : Shell.Sink → List String) (shown : List String), reports = shown.map .detail ∧
    Interleaved (reported .output) (reported .errors) shown ∧
    ∀ sink, ∃ ls, FallsInto ((streamOf sink written).map Stamped.byte) ls ∧
      (∀ l ∈ ls, ∀ text, l.text? = some text ↔ Text.encode text = l.content) ∧
      reported sink = texts (ls.takeWhile Line.isText) ∧
      ((texts ls).Sublist (reported sink) ↔ ¬Cut ls)

theorem streamed_reports (command : Invocation) (outcome : Outcome) (written : List Written) :
    Streamed written (reports command (.outcome outcome) written) := by
  refine ⟨fun sink ↦ (readAll (streamOf sink written)).map Prod.snd,
    merge (readAll (streamOf .output written)) (readAll (streamOf .errors written)), ?_, ?_, ?_⟩
  · exact List.append_nil _
  · exact (Interleaved.merge _ _ _).map Prod.snd
  · intro sink
    have htexts := texts_read (lines (streamOf sink written))
    refine ⟨lines (streamOf sink written), fallsInto_lines _, fun l _ _ ↦ l.text?_eq_some_iff,
      htexts, ?_⟩
    dsimp only
    rw [readAll, htexts]
    exact sublist_takeWhile_iff

/-- A command that ends in time gives back how it ended, and what it wrote is reported line by line
as far as it is text. -/
theorem output_streamed {m : Machine} {command : Invocation} {fs : FileSystem} {keys : Shell.Text}
    {outcome : Outcome} {s : State}
    (h : m.course .captured command fs keys = .ok (.outcome outcome, s)) :
    let x := m.execute .captured command fs keys
    x.result = .ok outcome ∧ Streamed (written s) x.reports := by
  intro x
  obtain ⟨hresult, hreports⟩ := execute_eq h
  refine ⟨hresult, ?_⟩
  rw [hreports]
  exact streamed_reports command outcome (written s)

def withPrintf : FileSystem where
  entries := [([Text.encode "printf"], .file (.bytes (Executable.toolFile "printf")) 0o755)]

def mixing : Invocation := ⟨"/printf", ["a\\n\\377\\nb\\n"], 5000⟩

def mixed : Text.Bytes := [97, 10, 255, 10, 98, 10]

theorem find_mixing (m : Machine) :
    m.find withPrintf mixing = .ok (Text.encode "/printf", .tool (Text.encode "printf")) := by
  have hfile : withPrintf.resolve (Text.encode "/printf") true =
      .ok (.found [Text.encode "printf"]
        (.file (.bytes (Executable.toolFile "printf")) 0o755)) := by
    have hroute : FileSystem.Route.ofBytes (Text.encode "/printf") =
        ⟨true, [Text.encode "printf"], false⟩ := by decide +kernel
    refine FileSystem.resolve_eq_ok.2 ⟨rfl, ?_⟩
    rw [hroute]
    have hname : FileSystem.IsName (Text.encode "printf") :=
      ⟨by decide +kernel, by decide +kernel, by decide +kernel⟩
    have hnode : withPrintf.get? ([] ++ [Text.encode "printf"]) =
        some (.file (.bytes (Executable.toolFile "printf")) 0o755) := by decide +kernel
    exact (FileSystem.walk_into rfl hname hnode nofun).trans (FileSystem.walk_nil hnode)
  have hstart : Executable.start withPrintf (Text.encode "/printf") =
      .ok (.tool (Text.encode "printf")) := by
    rw [Executable.start, Executable.maxInterpreters, Executable.check, Executable.ofPath, hfile]
    rfl
  have hfind : Executable.find withPrintf (m.directories.map Path.bytes)
      (Text.encode "/printf") = .ok (Text.encode "/printf", .tool (Text.encode "printf")) := by
    rw [Executable.find, if_neg (by decide +kernel), if_pos (by decide +kernel), hstart]
    rfl
  unfold find mixing
  dsimp only
  rw [if_neg (by decide +kernel), hfind]
  exact if_neg (by decide +kernel)

def mixedRun : EStateM.Result Shell.Stop State Unit :=
  (Shell.Run.launch Shell.Run.maxDepth (Shell.textOfBytes (Text.encode "/printf"))
    (.tool (Text.encode "printf")) (Shell.textOfString mixing.program)
    (mixing.arguments.map Shell.textOfString)).run
    ((⟨[]⟩ : Machine).initial .captured mixing withPrintf [])

theorem mixedRun_eq : ∃ s, mixedRun = .ok () s ∧ max s.clock s.lingering = 0 ∧ s.status = 0 ∧
    s.written = [⟨.output, 0, Shell.textOfBytes mixed⟩] := by
  let start := (⟨[]⟩ : Machine).initial .captured mixing withPrintf []
  exact ⟨{ start with written := [⟨.output, 0, Shell.textOfBytes mixed⟩] }, rfl, rfl, rfl, rfl⟩

theorem course_mixing : ∃ s,
    (⟨[]⟩ : Machine).course .captured mixing withPrintf [] = .ok (.outcome ⟨some 0⟩, s) ∧
      written s = [⟨.output, 0, Shell.textOfBytes mixed⟩] := by
  obtain ⟨s, hrun, hclock, hstatus, hwritten⟩ := mixedRun_eq
  refine ⟨s, ?_, ?_⟩
  · unfold course
    rw [find_mixing]
    change Except.ok (ending .captured mixing.timeoutMs mixedRun) = _
    rw [hrun, ending, ending.within, hclock, hstatus]
    rfl
  · rw [written, hwritten]
    exact List.mergeSort_singleton _

theorem output_streamed_rehearsed : ∃ s,
    (⟨[]⟩ : Machine).course .captured mixing withPrintf [] = .ok (.outcome ⟨some 0⟩, s) ∧
      (streamOf .output (written s)).map Stamped.byte = mixed ∧
      ((⟨[]⟩ : Machine).execute .captured mixing withPrintf []).result = .ok ⟨some 0⟩ ∧
      Streamed (written s) ((⟨[]⟩ : Machine).execute .captured mixing withPrintf []).reports := by
  obtain ⟨s, hcourse, hwritten⟩ := course_mixing
  refine ⟨s, hcourse, ?_, output_streamed hcourse⟩
  rw [hwritten]
  decide +kernel

/-- The line with the `b` is text and has its end, but nobody gets to see it. -/
theorem text_lost_behind_no_text :
    ∃ (s : State) (ls : List Line),
      (⟨[]⟩ : Machine).course .captured mixing withPrintf [] = .ok (.outcome ⟨some 0⟩, s) ∧
      FallsInto ((streamOf .output (written s)).map Stamped.byte) ls ∧
      ls.map Line.text? = [some "a", none, some "b"] ∧
      ((⟨[]⟩ : Machine).execute .captured mixing withPrintf []).result = .ok ⟨some 0⟩ ∧
      ((⟨[]⟩ : Machine).execute .captured mixing withPrintf []).reports = [.detail "a"] := by
  obtain ⟨s, hcourse, hwritten⟩ := course_mixing
  obtain ⟨hresult, hreports⟩ := execute_eq hcourse
  refine ⟨s, lines (streamOf .output (written s)), hcourse, fallsInto_lines _, ?_, hresult, ?_⟩
  · rw [hwritten]
    decide +kernel
  · rw [hreports, hwritten]
    have houtput : readAll (streamOf .output [⟨.output, 0, Shell.textOfBytes mixed⟩]) =
        [(0, "a")] := by decide +kernel
    have herrors : readAll (streamOf .errors [⟨.output, 0, Shell.textOfBytes mixed⟩]) = [] := by
      decide +kernel
    rw [reports, houtput, herrors, merge, List.merge_right]
    rfl

end Machine

end ReleaseTrain
