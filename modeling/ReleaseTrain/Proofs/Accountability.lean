import ReleaseTrain.Proofs.PackagingSteps

namespace ReleaseTrain

/-- Whether the error is a verdict on a step: on how a command ended, on what one left undone, or on
a login that nobody can be asked for. -/
def ReleaseError.isVerdict : ReleaseError → Bool
  | companionBuildFailed _ _ | agentBuildFailed _ _ | artifactNotFound _ _ | imageBuildFailed _ _
  | loginFailed _ _ | authenticationRequired _ _ | pushFailed _ _ => true
  | _ => false

namespace Session

variable {σ α β : Type}

/-- What was exchanged answers for the end: `own` holds of an error that came when every command had
succeeded, and `blame` relates the command that did not succeed to the error. -/
inductive Answers (blame : Call → ReleaseError → Prop) (own : ReleaseError → Prop) :
    List Exchange → Except ReleaseError α → Prop
  | well {xs : List Exchange} (a : α) : (∀ c ∈ calls xs, c.succeeded = true) →
      Answers blame own xs (.ok a)
  | own {xs : List Exchange} {e : ReleaseError} : (∀ c ∈ calls xs, c.succeeded = true) → own e →
      Answers blame own xs (.error e)
  | blamed {xs : List Exchange} {c : Call} {e : ReleaseError} :
      (∀ c ∈ calls xs, c.succeeded = true) → c.succeeded = false → blame c e →
      Answers blame own (xs ++ [.call c]) (.error e)

namespace Answers

variable {blame blame' : Call → ReleaseError → Prop} {own own' : ReleaseError → Prop}
  {xs ys : List Exchange} {r : Except ReleaseError α} {c : Call} {e : ReleaseError}

theorem mono (h : Answers blame own xs r) (hblame : ∀ c e, blame c e → blame' c e)
    (hown : ∀ e, own e → own' e) : Answers blame' own' xs r := by
  cases h with
  | well a hxs => exact .well a hxs
  | own hxs he => exact .own hxs (hown _ he)
  | blamed hxs hc he => exact .blamed hxs hc (hblame _ _ he)

theorem map (h : Answers blame own xs r) (f : α → β) : Answers blame own xs (r.map f) := by
  cases h with
  | well a hxs => exact .well (f a) hxs
  | own hxs he => exact .own hxs he
  | blamed hxs hc he => exact .blamed hxs hc he

theorem prepend (h : Answers blame own ys r) (xs : List Exchange)
    (hxs : ∀ c ∈ calls xs, c.succeeded = true) : Answers blame own (xs ++ ys) r := by
  have hall {zs : List Exchange} (hzs : ∀ c ∈ calls zs, c.succeeded = true) :
      ∀ c ∈ calls (xs ++ zs), c.succeeded = true := by
    intro c hc
    rw [calls_append, List.mem_append] at hc
    exact hc.elim (hxs c) (hzs c)
  cases h with
  | well a hys => exact .well a (hall hys)
  | own hys he => exact .own (hall hys) he
  | blamed hys hc he =>
    rw [← List.append_assoc]
    exact .blamed (hall hys) hc he

theorem of_last (xs : List Exchange) (hxs : ∀ c ∈ calls xs, c.succeeded = true)
    (hc : c.succeeded = false) (he : blame c e) :
    Answers blame own (xs ++ [.call c]) (.error e : Except ReleaseError α) := .blamed hxs hc he

/-- A command that did not succeed was the last one, and the session failed because of it. -/
theorem of_failed (h : Answers blame own xs r) (hc : c ∈ calls xs) (hfailed : c.succeeded = false) :
    (calls xs).getLast? = some c ∧ ∃ e, r = .error e ∧ blame c e := by
  have hcontra {zs : List Exchange} (hzs : ∀ c ∈ calls zs, c.succeeded = true)
      (hmem : c ∈ calls zs) : False := by
    rw [hzs c hmem] at hfailed
    cases hfailed
  cases h with
  | well a hxs => exact (hcontra hxs hc).elim
  | own hxs _ => exact (hcontra hxs hc).elim
  | @blamed zs d e hzs hd he =>
    rw [calls_append, calls_call, calls_nil] at hc ⊢
    obtain hmem | hlast := List.mem_append.1 hc
    · exact (hcontra hzs hmem).elim
    · obtain rfl := List.mem_singleton.1 hlast
      exact ⟨List.getLast?_concat, e, rfl, he⟩

theorem error_cases (h : Answers blame own xs r) (hr : r = .error e) :
    (∃ c, (calls xs).getLast? = some c ∧ c.succeeded = false ∧ blame c e) ∨ own e := by
  cases h with
  | well a _ => cases hr
  | own _ he =>
    cases hr
    exact .inr he
  | @blamed zs c e hzs hc he =>
    cases hr
    refine .inl ⟨c, ?_, hc, he⟩
    rw [calls_append, calls_call, calls_nil, List.getLast?_concat]

end Answers

/-- Started in `w`, the session ends so that what it exchanged answers for it. -/
def Accounted (blame : Call → ReleaseError → Prop) (own : ReleaseError → Prop) (m : Session σ α)
    (w : World σ) : Prop :=
  Ends m w fun xs r _ ↦ Answers blame own xs r

/-- The session exchanges nothing, and if it fails, its error is no verdict. -/
structure Plain (m : Session σ α) : Prop where
  silent : Silent m
  plain : ∀ w e w', m w = .error e w' → e.isVerdict = false

namespace Accounted

variable {blame blame' : Call → ReleaseError → Prop} {own own' : ReleaseError → Prop}
  {m : Session σ α} {f : α → Session σ β} {w : World σ}

theorem mono (h : Accounted blame own m w) (hblame : ∀ c e, blame c e → blame' c e)
    (hown : ∀ e, own e → own' e) : Accounted blame' own' m w :=
  Ends.mono h fun _ _ _ hxs ↦ hxs.mono hblame hown

theorem bind (hm : Accounted blame own m w)
    (hf : ∀ a w', m w = .ok a w' → Accounted blame own (f a) w') :
    Accounted blame own (m >>= f) w := by
  refine Ends.bind hm ?_ ?_
  · intro xs e w' _ h
    cases h with
    | own hxs he => exact .own hxs he
    | blamed hxs hc he => exact .blamed hxs hc he
  · intro xs a w' hw h
    cases h with
    | well _ hxs => exact Ends.mono (hf a w' hw) fun _ _ _ hys ↦ hys.prepend _ hxs

theorem pure (a : α) : Accounted blame own (Pure.pure a : Session σ α) w :=
  Ends.pure (.well a (by simp))

theorem throw {e : ReleaseError} (he : own e) :
    Accounted blame own (MonadExcept.throw e : Session σ α) w :=
  Ends.throw (.own (by simp) he)

theorem of_silent (hm : Silent m) (hown : ∀ e w', m w = .error e w' → own e) :
    Accounted blame own m w := by
  refine (hm.ends w).mono ?_
  intro xs r w' h
  obtain ⟨rfl, rfl, -⟩ := h
  cases hw : m w with
  | ok a w' =>
    rw [result_of_ok hw]
    exact .well a (by simp)
  | error e w' =>
    rw [result_of_error hw]
    exact .own (by simp) (hown e w' hw)

theorem of_plain (hm : Plain m) (hown : ∀ e : ReleaseError, e.isVerdict = false → own e) :
    Accounted blame own m w :=
  of_silent hm.silent fun e w' hw ↦ hown e (hm.plain w e w' hw)

theorem of_isCommand {env : Surroundings σ} {mode : Mode} {command : Invocation}
    {failure : Except ReleaseError Outcome → ReleaseError} {m : Session σ Unit}
    (h : IsCommand env mode command failure m) (hblame : ∀ a, blame ⟨mode, command, a⟩ (failure a)) :
    Accounted blame own m w := by
  refine (h w).mono ?_
  intro xs r w' h
  obtain ⟨a, rfl, -, -, -, ⟨rfl, rfl⟩ | ⟨ha, rfl⟩⟩ := h
  · exact .well () (by simp [Call.succeeded_iff])
  · exact .of_last [] (by simp) (Call.succeeded_eq_false ha) (hblame a)

end Accounted

namespace Plain

variable {m : Session σ α} {f : α → Session σ β}

theorem pure (a : α) : Plain (Pure.pure a : Session σ α) := ⟨.pure a, fun _ _ _ h ↦ by cases h⟩

theorem throw {e : ReleaseError} (he : e.isVerdict = false) :
    Plain (MonadExcept.throw e : Session σ α) :=
  ⟨.throw e, fun _ _ _ h ↦ by cases h; exact he⟩

theorem bind (hm : Plain m) (hf : ∀ a, Plain (f a)) : Plain (m >>= f) := by
  refine ⟨hm.silent.bind fun a ↦ (hf a).silent, ?_⟩
  intro w e w' h
  obtain hfirst | ⟨a, w₁, -, hsecond⟩ := bind_eq_error.1 h
  · exact hm.plain w e w' hfirst
  · exact (hf a).plain w₁ e w' hsecond

theorem report (r : Report) : Plain (Session.report r : Session σ Unit) :=
  ⟨.report r, fun _ _ _ h ↦ by cases h⟩

theorem files : Plain (Session.files : Session σ FileSystem) :=
  ⟨.files, fun _ _ _ h ↦ by cases h⟩

theorem onFiles {cause : FileSystem.Failure → ReleaseError}
    (hcause : ∀ failure, (cause failure).isVerdict = false) (action : FileSystem.Action α) :
    Plain (Session.onFiles cause action : Session σ α) := by
  refine ⟨.onFiles cause action, fun w e w' h ↦ ?_⟩
  unfold Session.onFiles at h
  cases haction : action w.files with
  | ok a fs =>
    rw [haction] at h
    cases h
  | error failure fs =>
    rw [haction] at h
    cases h
    exact hcause failure

theorem orThrow {x : Except ReleaseError α} (hx : ∀ e, x = .error e → e.isVerdict = false) :
    Plain (Session.orThrow x : Session σ α) := by
  cases x with
  | ok a => exact pure a
  | error e => exact throw (hx e rfl)

theorem removeDirectory (path : Path) : Plain (Session.removeDirectory path : Session σ Unit) :=
  onFiles (fun _ ↦ rfl) _

theorem removeFile (path : Path) : Plain (Session.removeFile path : Session σ Unit) :=
  onFiles (fun _ ↦ rfl) _

theorem removeEach (path : Path) (entries : List (Location × Node)) :
    Plain (Session.removeEach path entries : Session σ Unit) := by
  induction entries with
  | nil => exact pure _
  | cons e entries ih => exact (onFiles (fun _ ↦ rfl) _).bind fun _ ↦ ih

theorem emptyDirectory (path : Path) :
    Plain (Session.emptyDirectory path : Session σ Unit) := by
  refine files.bind fun fs ↦ ?_
  cases fs.listDirectory path.bytes with
  | error failure =>
    cases failure
    case notFound => exact pure _
    all_goals exact throw rfl
  | ok entries => exact removeEach path entries

theorem makeDirectories (path : Path) : Plain (Session.makeDirectories path : Session σ Unit) :=
  onFiles (fun _ ↦ rfl) _

theorem makeParents (path : Path) : Plain (Session.makeParents path : Session σ Unit) := by
  unfold Session.makeParents
  split
  · exact makeDirectories _
  · exact pure _

theorem writeText (path : Path) (text : String) :
    Plain (Session.writeText path text : Session σ Unit) :=
  (makeParents path).bind fun _ ↦ onFiles (fun _ ↦ rfl) _

theorem read (path : Path) : Plain (Session.read path : Session σ Text.Bytes) :=
  onFiles (fun _ ↦ rfl) _

theorem archive (source target : Path) :
    Plain (Session.archive source target : Session σ Unit) := by
  refine files.bind fun fs ↦ ?_
  cases fs.directoryAt? source.bytes with
  | none => exact throw rfl
  | some root =>
    refine (makeParents target).bind fun _ ↦ (onFiles (fun _ ↦ rfl) _).bind fun _ ↦
      files.bind fun fs ↦ (onFiles (fun _ ↦ rfl) _).bind fun _ ↦ ?_
    cases (distinctEntries [] (fs.archiveEntries root)).2 with
    | none => exact pure _
    | some name => exact throw rfl

end Plain

end Session

namespace Packaging

variable {σ : Type}

open Session

theorem plain_cleanExtra (dirs : List Path) : Plain (cleanExtra dirs : Session σ Unit) := by
  induction dirs with
  | nil => exact .pure _
  | cons dir dirs ih =>
    exact (Plain.report _).bind fun _ ↦ (Plain.removeDirectory dir).bind fun _ ↦ ih

theorem plain_clean (s : Settings) : Plain (clean s : Session σ Unit) :=
  (Plain.report _).bind fun _ ↦ (Plain.removeDirectory _).bind fun _ ↦
    (Plain.emptyDirectory _).bind fun _ ↦ (Plain.removeDirectory _).bind fun _ ↦
      (plain_cleanExtra _).bind fun _ ↦ .report _

theorem plain_clearPlatform (s : Settings) (p : Platform) :
    Plain (clearPlatform s p : Session σ Unit) :=
  (Plain.removeFile _).bind fun _ ↦ (Plain.removeDirectory _).bind fun _ ↦ .removeFile _

theorem plain_markVersion (s : Settings) (v : Version) :
    Plain (markVersion s v : Session σ Unit) :=
  (Plain.writeText _ _).bind fun _ ↦ .report _

end Packaging

end ReleaseTrain
