import ReleaseTrain.Proofs.PathNames

namespace ReleaseTrain

open Text (Bytes)

namespace FileSystem

variable {cwd l : Location} {path : Bytes}

/-- The location that a path without `..` names, looked up from `cwd`. -/
def placeOf (cwd : Location) (path : Bytes) : Location :=
  (if (Route.ofBytes path).fromRoot then [] else cwd) ++ plainSteps path

theorem placeOf_join {n : String} (hn : Path.IsPlainName n) (p : Path) :
    placeOf cwd (p.join n).bytes = placeOf cwd p.bytes ++ [Text.encode n] := by
  unfold placeOf
  rw [Path.plainSteps_join hn, Path.ofBytes_join hn, List.append_assoc]

/-- Looked up from `cwd`, the path names the location, and never goes up on the way. -/
structure Names (cwd : Location) (path : Bytes) (l : Location) : Prop where
  no_up : stepUp ∉ plainSteps path
  eq : placeOf cwd path = l

theorem names_placeOf {path : Bytes} (h : stepUp ∉ plainSteps path) :
    Names cwd path (placeOf cwd path) := ⟨h, rfl⟩

theorem Names.join {p : Path} (h : Names cwd p.bytes l) {n : String} (hn : Path.IsPlainName n) :
    Names cwd (p.join n).bytes (l ++ [Text.encode n]) := by
  refine ⟨?_, by rw [placeOf_join hn, h.eq]⟩
  rw [Path.plainSteps_join hn, List.mem_append, List.mem_singleton]
  exact fun hup ↦ hup.elim h.no_up fun heq ↦ hn.encode_ne_up heq.symm

theorem Names.parent {p q : Path} (h : Names cwd p.bytes l) (hq : p.parent? = some q)
    (hne : plainSteps p.bytes ≠ []) : Names cwd q.bytes l.dropLast := by
  obtain ⟨hsteps, habsolute⟩ := Path.plainSteps_parent hq
  refine ⟨?_, ?_⟩
  · rw [hsteps]
    exact fun hup ↦ h.no_up ((List.dropLast_sublist _).subset hup)
  · rw [← h.eq]
    unfold placeOf
    rw [hsteps, Path.fromRoot_bytes, habsolute, Path.fromRoot_bytes,
      List.dropLast_append_of_ne_nil hne]

theorem withoutTrailing_append (path : Bytes) :
    ∃ k, path = withoutTrailing path ++ List.replicate k separator := by
  refine ⟨(path.reverse.takeWhile (· = separator)).length, ?_⟩
  have hall : path.reverse.takeWhile (· = separator) =
      List.replicate (path.reverse.takeWhile (· = separator)).length separator := by
    refine List.eq_replicate_iff.2 ⟨rfl, fun b hb ↦ ?_⟩
    simpa using List.all_eq_true.1 List.all_takeWhile b hb
  have hsplit := List.takeWhile_append_dropWhile (p := (· = separator)) (l := path.reverse)
  rw [hall] at hsplit
  have hreverse := congrArg List.reverse hsplit
  rw [List.reverse_append, List.reverse_replicate, List.reverse_reverse] at hreverse
  exact hreverse.symm

theorem plainSteps_append_replicate (k : Nat) (bs : Bytes) :
    plainSteps (bs ++ List.replicate k separator) = plainSteps bs := by
  induction k generalizing bs with
  | zero => rw [List.replicate_zero, List.append_nil]
  | succ k ih =>
    have hone : plainSteps (bs ++ [separator]) = plainSteps bs := by
      unfold plainSteps Route.ofBytes
      dsimp only
      rw [names_append_sep, List.filter_append]
      exact congrArg _ (List.append_nil _)
    rw [List.replicate_succ, ← List.singleton_append, ← List.append_assoc, ih, hone]

theorem Names.withoutTrailing (h : Names cwd path l) (hne : withoutTrailing path ≠ []) :
    Names cwd (withoutTrailing path) l := by
  obtain ⟨k, hk⟩ := withoutTrailing_append path
  have hsteps := (congrArg plainSteps hk).trans (plainSteps_append_replicate k _)
  have hroot : (Route.ofBytes path).fromRoot =
      (Route.ofBytes (FileSystem.withoutTrailing path)).fromRoot := by
    obtain ⟨b, bs, hbs⟩ := List.exists_cons_of_ne_nil hne
    rw [hbs] at hk ⊢
    rw [hk]
    rfl
  exact ⟨hsteps ▸ h.no_up, by rw [← h.eq, placeOf, placeOf, hsteps, hroot]⟩

theorem mem_names {n : Name} (h : n ∈ names path) : separator ∉ n := by
  induction path generalizing n with
  | nil =>
    obtain rfl := List.mem_singleton.1 h
    exact List.not_mem_nil
  | cons b bs ih =>
    by_cases hb : b = separator
    · rw [names, if_pos hb] at h
      rcases List.mem_cons.1 h with rfl | h
      · exact List.not_mem_nil
      · exact ih h
    · obtain ⟨m, ms, hms⟩ := List.exists_cons_of_ne_nil (names_ne_nil bs)
      rw [names, if_neg hb, hms] at h
      rw [hms] at ih
      rcases List.mem_cons.1 h with rfl | h
      · have hm := ih List.mem_cons_self
        simpa [hm] using Ne.symm hb
      · exact ih (List.mem_cons_of_mem m h)

theorem names_intercalate {steps : List Name} (h : ∀ n ∈ steps, n ≠ [] ∧ separator ∉ n) :
    (names (List.intercalate [separator] steps)).filter (· ≠ []) = steps := by
  induction steps with
  | nil => rfl
  | cons n steps ih =>
    obtain ⟨hne, hsep⟩ := h n List.mem_cons_self
    have htail := ih fun m hm ↦ h m (List.mem_cons_of_mem n hm)
    cases steps with
    | nil =>
      rw [List.intercalate_singleton, names_of_notMem hsep]
      exact List.filter_cons_of_pos (by simpa using hne)
    | cons m steps =>
      rw [List.intercalate_cons_cons, List.append_assoc, List.singleton_append, names_append_sep,
        names_of_notMem hsep, List.filter_append, htail]
      exact congrArg (· ++ _) (List.filter_cons_of_pos (by simpa using hne))

theorem mem_plainSteps {n : Name} (h : n ∈ plainSteps path) :
    (n ≠ [] ∧ separator ∉ n) ∧ n ≠ stepHere := by
  obtain ⟨hsteps, hhere⟩ := List.mem_filter.1 h
  obtain ⟨hnames, hne⟩ := List.mem_filter.1 hsteps
  exact ⟨⟨by simpa using hne, mem_names hnames⟩, by simpa using hhere⟩

theorem plainSteps_joinNames (fromRoot : Bool) {steps : List Name}
    (h : ∀ n ∈ steps, (n ≠ [] ∧ separator ∉ n) ∧ n ≠ stepHere) :
    plainSteps (joinNames fromRoot steps) = steps := by
  have hnames := names_intercalate fun n hn ↦ (h n hn).1
  have hhere : steps.filter (· ≠ stepHere) = steps :=
    List.filter_eq_self.2 fun n hn ↦ by simpa using (h n hn).2
  unfold plainSteps Route.ofBytes joinNames
  dsimp only
  cases fromRoot with
  | false => exact (congrArg _ hnames).trans hhere
  | true =>
    have hsplit : names ([separator] ++ List.intercalate [separator] steps) =
        [] :: names (List.intercalate [separator] steps) := names_append_sep [] _
    rw [if_pos rfl, hsplit]
    exact (congrArg _ hnames).trans hhere

theorem names_joinNames (cwd : Location) (fromRoot : Bool) {steps : List Name}
    (h : ∀ n ∈ steps, (n ≠ [] ∧ separator ∉ n) ∧ n ≠ stepHere) (hup : stepUp ∉ steps) :
    Names cwd (joinNames fromRoot steps) ((if fromRoot then [] else cwd) ++ steps) := by
  have hplain := plainSteps_joinNames fromRoot h
  have hroot : (Route.ofBytes (joinNames fromRoot steps)).fromRoot = fromRoot := by
    cases fromRoot with
    | true => rfl
    | false =>
      have hhead : (List.intercalate [separator] steps).head? ≠ some separator := by
        cases steps with
        | nil => simp
        | cons n steps =>
          obtain ⟨hne, hsep⟩ := (h n List.mem_cons_self).1
          obtain ⟨b, bs, rfl⟩ := List.exists_cons_of_ne_nil hne
          cases steps with
          | nil => simpa using fun hb ↦ hsep (by simp [hb])
          | cons m steps =>
            simpa [List.intercalate_cons_cons] using fun hb ↦ hsep (by simp [hb])
      exact decide_eq_false hhead
  exact ⟨by rwa [hplain], by rw [placeOf, hplain, hroot]⟩

end FileSystem

end ReleaseTrain
