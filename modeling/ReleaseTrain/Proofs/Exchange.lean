import ReleaseTrain.Packaging.Files

namespace ReleaseTrain

/-- A command that was run, with its end. -/
structure Call where
  mode : Mode
  command : Invocation
  result : Except ReleaseError Outcome

namespace Call

/-- A command that could not be run to its end did not succeed. -/
def succeeded (c : Call) : Bool := c.result.toOption.any Outcome.success

def order (c : Call) : Mode × Invocation := (c.mode, c.command)

/-- A command that was run and succeeded. -/
def done (mode : Mode) (command : Invocation) : Call := ⟨mode, command, .ok ⟨some 0⟩⟩

@[simp] theorem order_done (mode : Mode) (command : Invocation) :
    (done mode command).order = (mode, command) := rfl

@[simp] theorem succeeded_done (mode : Mode) (command : Invocation) :
    (done mode command).succeeded = true := rfl

theorem succeeded_iff {c : Call} : c.succeeded = true ↔ c.result = .ok ⟨some 0⟩ := by
  rcases c with ⟨mode, command, _ | ⟨⟨code⟩⟩⟩ <;>
    simp [succeeded, Except.toOption, Outcome.success]

theorem succeeded_eq_false {c : Call} (h : c.result ≠ .ok ⟨some 0⟩) : c.succeeded = false := by
  rwa [← Bool.not_eq_true, succeeded_iff]

end Call

inductive Exchange
  | call (c : Call)
  | asked (question : String) (answer : Bool)

namespace Exchange

def ofEvent? : Event → Option Exchange
  | .ran mode command result => some (.call ⟨mode, command, result⟩)
  | .asked question answer => some (.asked question answer)
  | _ => none

def call? : Exchange → Option Call
  | .call c => some c
  | .asked _ _ => none

end Exchange

def exchanges (events : List Event) : List Exchange := events.filterMap Exchange.ofEvent?

def calls (xs : List Exchange) : List Call := xs.filterMap Exchange.call?

@[simp] theorem exchanges_append (es fs : List Event) :
    exchanges (es ++ fs) = exchanges es ++ exchanges fs := List.filterMap_append

@[simp] theorem exchanges_nil : exchanges [] = [] := rfl

@[simp] theorem exchanges_reported (reports : List Report) :
    exchanges (reports.map .reported) = [] := by
  induction reports with
  | nil => rfl
  | cons r reports ih => exact ih

@[simp] theorem calls_nil : calls [] = [] := rfl

@[simp] theorem calls_append (xs ys : List Exchange) : calls (xs ++ ys) = calls xs ++ calls ys :=
  List.filterMap_append

@[simp] theorem calls_call (c : Call) (xs : List Exchange) :
    calls (.call c :: xs) = c :: calls xs :=
  rfl

@[simp] theorem calls_asked (q : String) (a : Bool) (xs : List Exchange) :
    calls (.asked q a :: xs) = calls xs := rfl

@[simp] theorem calls_map_call (cs : List Call) : calls (cs.map .call) = cs := by
  induction cs with
  | nil => rfl
  | cons c cs ih => simp only [List.map_cons, calls_call, ih]

@[simp] theorem mem_calls {c : Call} {xs : List Exchange} : c ∈ calls xs ↔ .call c ∈ xs := by
  induction xs with
  | nil => simp
  | cons x xs ih => cases x <;> simp [ih]

/-- The first answer that was given to a question. -/
def answerTo? (question : String) (xs : List Exchange) : Option Bool :=
  xs.findSome? fun
    | .asked q a => if q = question then some a else none
    | .call _ => none

@[simp] theorem answerTo?_nil (q : String) : answerTo? q [] = none := rfl

@[simp] theorem answerTo?_append (q : String) (xs ys : List Exchange) :
    answerTo? q (xs ++ ys) = (answerTo? q xs).or (answerTo? q ys) := List.findSome?_append

@[simp] theorem answerTo?_call (q : String) (c : Call) (xs : List Exchange) :
    answerTo? q (.call c :: xs) = answerTo? q xs := rfl

@[simp] theorem answerTo?_asked (q q' : String) (a : Bool) (xs : List Exchange) :
    answerTo? q (.asked q' a :: xs) = if q' = q then some a else answerTo? q xs := by
  by_cases h : q' = q <;> simp [answerTo?, h]

@[simp] theorem answerTo?_map_call (q : String) (cs : List Call) :
    answerTo? q (cs.map .call) = none := by
  induction cs with
  | nil => rfl
  | cons c cs ih => rw [List.map_cons, answerTo?_call, ih]

theorem eq_ok_of_toOption {ε α : Type} {r : Except ε α} {a : α} (h : r.toOption = some a) :
    r = .ok a := by
  cases r with
  | ok b => exact congrArg Except.ok (Option.some.inj h)
  | error e => cases h

namespace Session

variable {σ α β : Type}

def result (m : Session σ α) (w : World σ) : Except ReleaseError α :=
  match m w with
  | .ok a _ => .ok a
  | .error e _ => .error e

def after (m : Session σ α) (w : World σ) : World σ :=
  match m w with
  | .ok _ w' | .error _ w' => w'

/-- What stands in the record after a session and not before it. -/
def exchanged (m : Session σ α) (w : World σ) : List Exchange :=
  (exchanges (after m w).events).drop (exchanges w.events).length

/-- Started in `w`, the session ends as `Q` says of what it exchanged, of its result and of the
world it leaves. -/
def Ends (m : Session σ α) (w : World σ)
    (Q : List Exchange → Except ReleaseError α → World σ → Prop) : Prop :=
  ∃ xs, exchanges (after m w).events = exchanges w.events ++ xs ∧ Q xs (result m w) (after m w)

theorem result_of_ok {m : Session σ α} {w w' : World σ} {a : α} (h : m w = .ok a w') :
    result m w = .ok a := by simp only [result, h]

theorem after_of_ok {m : Session σ α} {w w' : World σ} {a : α} (h : m w = .ok a w') :
    after m w = w' := by simp only [after, h]

theorem result_of_error {m : Session σ α} {w w' : World σ} {e : ReleaseError}
    (h : m w = .error e w') : result m w = .error e := by simp only [result, h]

theorem after_of_error {m : Session σ α} {w w' : World σ} {e : ReleaseError}
    (h : m w = .error e w') : after m w = w' := by simp only [after, h]

theorem bind_of_ok {m : Session σ α} {f : α → Session σ β} {w w' : World σ} {a : α}
    (h : m w = .ok a w') : (m >>= f) w = f a w' := by
  change EStateM.bind m f w = f a w'
  simp only [EStateM.bind, h]

theorem bind_of_error {m : Session σ α} {f : α → Session σ β} {w w' : World σ} {e : ReleaseError}
    (h : m w = .error e w') : (m >>= f) w = .error e w' := by
  change EStateM.bind m f w = .error e w'
  simp only [EStateM.bind, h]

theorem after_bind_of_ok {m : Session σ α} {f : α → Session σ β} {w w' : World σ} {a : α}
    (h : m w = .ok a w') : after (m >>= f) w = after (f a) w' := by simp only [after, bind_of_ok h]

theorem after_bind_pure (m : Session σ α) (f : α → β) (w : World σ) :
    after (m >>= fun a ↦ Pure.pure (f a)) w = after m w := by
  cases hm : m w with
  | ok a w' =>
    rw [after_bind_of_ok hm, after_of_ok hm]
    rfl
  | error e w' => rw [after_of_error (bind_of_error hm), after_of_error hm]

theorem bind_eq_ok {m : Session σ α} {f : α → Session σ β} {w w' : World σ} {b : β} :
    (m >>= f) w = .ok b w' ↔ ∃ a w₁, m w = .ok a w₁ ∧ f a w₁ = .ok b w' := by
  constructor
  · intro h
    cases hm : m w with
    | ok a w₁ => exact ⟨a, w₁, rfl, (bind_of_ok hm).symm.trans h⟩
    | error e w₁ =>
      rw [bind_of_error hm] at h
      cases h
  · intro h
    obtain ⟨a, w₁, hm, hf⟩ := h
    exact (bind_of_ok hm).trans hf

theorem bind_eq_error {m : Session σ α} {f : α → Session σ β} {w w' : World σ}
    {e : ReleaseError} : (m >>= f) w = .error e w' ↔
      m w = .error e w' ∨ ∃ a w₁, m w = .ok a w₁ ∧ f a w₁ = .error e w' := by
  constructor
  · intro h
    cases hm : m w with
    | ok a w₁ => exact .inr ⟨a, w₁, rfl, (bind_of_ok hm).symm.trans h⟩
    | error e w₁ =>
      rw [bind_of_error hm] at h
      cases h
      exact .inl rfl
  · intro h
    obtain hm | ⟨a, w₁, hm, hf⟩ := h
    · exact bind_of_error hm
    · exact (bind_of_ok hm).trans hf

theorem eq_of_result_ok {m : Session σ α} {w : World σ} {a : α} (h : result m w = .ok a) :
    m w = .ok a (after m w) := by
  cases hm : m w with
  | ok b w' =>
    rw [result_of_ok hm] at h
    cases h
    rw [after_of_ok hm]
  | error e w' =>
    rw [result_of_error hm] at h
    cases h

theorem eq_of_result_error {m : Session σ α} {w : World σ} {e : ReleaseError}
    (h : result m w = .error e) : m w = .error e (after m w) := by
  cases hm : m w with
  | ok b w' =>
    rw [result_of_ok hm] at h
    cases h
  | error e w' =>
    rw [result_of_error hm] at h
    cases h
    rw [after_of_error hm]

namespace Ends

variable {m : Session σ α} {f : α → Session σ β} {w : World σ}
  {P Q : List Exchange → Except ReleaseError α → World σ → Prop}
  {R : List Exchange → Except ReleaseError β → World σ → Prop}

theorem exchanged (h : Ends m w Q) : Q (Session.exchanged m w) (result m w) (after m w) := by
  obtain ⟨xs, hxs, hQ⟩ := h
  have he : Session.exchanged m w = xs := by
    rw [Session.exchanged, hxs, List.drop_left]
  rwa [he]

theorem mono (h : Ends m w P) (hPQ : ∀ xs r w', P xs r w' → Q xs r w') : Ends m w Q := by
  obtain ⟨xs, hxs, hP⟩ := h
  exact ⟨xs, hxs, hPQ xs _ _ hP⟩

theorem bind (h : Ends m w P)
    (herror : ∀ xs e w', m w = .error e w' → P xs (.error e) w' → R xs (.error e) w')
    (hok : ∀ xs a w', m w = .ok a w' → P xs (.ok a) w' →
      Ends (f a) w' fun ys r w'' ↦ R (xs ++ ys) r w'') :
    Ends (m >>= f) w R := by
  obtain ⟨xs, hxs, hP⟩ := h
  cases hm : m w with
  | error e w' =>
    -- The second session is not started, and the whole ends as the first one did.
    have hb := bind_of_error (f := f) hm
    rw [result_of_error hm, after_of_error hm] at hP
    rw [after_of_error hm] at hxs
    refine ⟨xs, ?_, ?_⟩
    · rw [after_of_error hb, hxs]
    · rw [result_of_error hb, after_of_error hb]
      exact herror xs e w' hm hP
  | ok a w' =>
    have hb := bind_of_ok (f := f) hm
    rw [result_of_ok hm, after_of_ok hm] at hP
    rw [after_of_ok hm] at hxs
    obtain ⟨ys, hys, hR⟩ := hok xs a w' hm hP
    have hresult : result (m >>= f) w = result (f a) w' := by simp only [result, hb]
    have hafter := after_bind_of_ok (f := f) hm
    refine ⟨xs ++ ys, ?_, ?_⟩
    · rw [hafter, hys, hxs, List.append_assoc]
    · rw [hresult, hafter]
      exact hR

theorem pure {a : α} (h : Q [] (.ok a) w) : Ends (Pure.pure a : Session σ α) w Q :=
  ⟨[], (List.append_nil _).symm, h⟩

theorem throw {e : ReleaseError} (h : Q [] (.error e) w) :
    Ends (MonadExcept.throw e : Session σ α) w Q :=
  ⟨[], (List.append_nil _).symm, h⟩

theorem map {g : α → β} (h : Ends m w fun xs r w' ↦ R xs (r.map g) w') : Ends (g <$> m) w R := by
  obtain ⟨xs, hxs, hR⟩ := h
  cases hm : m w with
  | ok a w' =>
    have hg : (g <$> m) w = .ok (g a) w' := by
      change EStateM.map g m w = _
      simp only [EStateM.map, hm]
    rw [result_of_ok hm, after_of_ok hm] at hR
    rw [after_of_ok hm] at hxs
    refine ⟨xs, ?_, ?_⟩
    · rw [after_of_ok hg, hxs]
    · rwa [result_of_ok hg, after_of_ok hg]
  | error e w' =>
    have hg : (g <$> m) w = .error e w' := by
      change EStateM.map g m w = _
      simp only [EStateM.map, hm]
    rw [result_of_error hm, after_of_error hm] at hR
    rw [after_of_error hm] at hxs
    refine ⟨xs, ?_, ?_⟩
    · rw [after_of_error hg, hxs]
    · rwa [result_of_error hg, after_of_error hg]

end Ends

/-- Whatever happens in it, the session exchanges nothing. -/
def Silent (m : Session σ α) : Prop := ∀ w, exchanges (after m w).events = exchanges w.events

namespace Silent

variable {m : Session σ α} {f : α → Session σ β}

theorem ends (h : Silent m) (w : World σ) :
    Ends m w fun xs r w' ↦ xs = [] ∧ r = result m w ∧ w' = after m w :=
  ⟨[], by rw [h w, List.append_nil], rfl, rfl, rfl⟩

theorem pure (a : α) : Silent (Pure.pure a : Session σ α) := fun _ ↦ rfl

theorem throw (e : ReleaseError) : Silent (MonadExcept.throw e : Session σ α) := fun _ ↦ rfl

theorem bind (hm : Silent m) (hf : ∀ a, Silent (f a)) : Silent (m >>= f) := by
  intro w
  have h := hm w
  cases hw : m w with
  | ok a w' =>
    have hb := bind_of_ok (f := f) hw
    rw [after_of_ok hw] at h
    rw [after, hb, ← h]
    exact hf a w'
  | error e w' =>
    have hb := bind_of_error (f := f) hw
    rw [after_of_error hw] at h
    rw [after, hb, ← h]

theorem record_reported (reports : List Report) :
    Silent (record (reports.map .reported) : Session σ Unit) := by
  intro w
  change exchanges (w.events ++ reports.map .reported) = _
  simp

theorem report (r : Report) : Silent (Session.report r : Session σ Unit) := record_reported [r]

theorem files : Silent (Session.files : Session σ FileSystem) := fun _ ↦ rfl

theorem onFiles (cause : FileSystem.Failure → ReleaseError) (action : FileSystem.Action α) :
    Silent (Session.onFiles cause action : Session σ α) := by
  intro w
  rw [after, Session.onFiles]
  cases action w.files <;> rfl

theorem orThrow (x : Except ReleaseError α) : Silent (Session.orThrow x : Session σ α) := by
  cases x with
  | ok a => exact pure a
  | error e => exact throw e

end Silent

namespace Ends

variable {m : Session σ α} {f : α → Session σ β} {w : World σ}
  {Q : List Exchange → Except ReleaseError β → World σ → Prop}

theorem silent_bind (hm : Silent m)
    (herror : ∀ e w', m w = .error e w' → Q [] (.error e) w')
    (hok : ∀ a w', m w = .ok a w' → Ends (f a) w' Q) : Ends (m >>= f) w Q := by
  refine (hm.ends w).bind ?_ ?_
  · intro xs e w' hw h
    obtain ⟨rfl, -, -⟩ := h
    exact herror e w' hw
  · intro xs a w' hw h
    obtain ⟨rfl, -, -⟩ := h
    exact hok a w' hw

theorem report {r : Report} {w : World σ}
    {Q : List Exchange → Except ReleaseError Unit → World σ → Prop}
    (h : Q [] (.ok ()) (after (report r) w)) : Ends (report r) w Q :=
  ((Silent.report r).ends w).mono fun _ _ _ ⟨hxs, hr, hw⟩ ↦ hxs ▸ hr ▸ hw ▸ h

theorem report_bind {r : Report} {f : Unit → Session σ β}
    (h : Ends (f ()) (after (Session.report r) w) Q) : Ends (Session.report r >>= f) w Q := by
  refine silent_bind (Silent.report r) ?_ ?_
  · intro e w' hw
    cases hw
  · intro a w' hw
    rwa [after_of_ok hw] at h

theorem attempt_bind {env : Surroundings σ} {mode : Mode} {command : Invocation}
    {f : Except ReleaseError Outcome → Session σ β}
    (h : ∀ r w', attempt env mode command w = .ok r w' →
      Ends (f r) w' fun ys s w'' ↦ Q (.call ⟨mode, command, r⟩ :: ys) s w'') :
    Ends (attempt env mode command >>= f) w Q := by
  have hcall : Ends (attempt env mode command) w fun xs r _ ↦
      ∀ a, r = .ok a → xs = [.call ⟨mode, command, a⟩] := by
    refine ⟨[.call ⟨mode, command, (env.execute mode command w.files w.tools).result⟩], ?_, ?_⟩
    · cases mode <;>
        simp [attempt, after, exchanges, Exchange.ofEvent?, List.filterMap_append,
          List.filterMap_map, Function.comp_def]
    · intro a h
      cases h
      rfl
  refine hcall.bind ?_ ?_
  · intro xs e w' hw
    cases hw
  · intro xs a w' hw hxs
    rw [hxs a rfl]
    exact h a w' hw

theorem confirm (env : Surroundings σ) (question : String) (w : World σ) :
    Ends (confirm env question) w fun xs r _ ↦ ∃ a, xs = [.asked question a] ∧ r = .ok a := by
  refine ⟨[.asked question (env.answer question w.tools).1], ?_, _, rfl, rfl⟩
  simp [Session.confirm, after, exchanges, Exchange.ofEvent?, List.filterMap_append]

theorem confirm_bind {env : Surroundings σ} {question : String} {f : Bool → Session σ β}
    (h : ∀ answer w', Ends (f answer) w' fun ys s w'' ↦ Q (.asked question answer :: ys) s w'') :
    Ends (Session.confirm env question >>= f) w Q := by
  refine (confirm env question w).bind ?_ ?_
  · intro xs e w' _ h
    obtain ⟨a, -, hr⟩ := h
    cases hr
  · intro xs answer w' _ h
    obtain ⟨a, rfl, hr⟩ := h
    cases hr
    exact h answer w'

end Ends

/-- A command succeeds, has no end, or is refused. -/
theorem end_cases (a : Except ReleaseError Outcome) :
    a = .ok ⟨some 0⟩ ∨ a ≠ .ok ⟨some 0⟩ ∧
      ((∃ cause, a = .error cause) ∨ ∃ outcome, a = .ok outcome ∧ outcome.success = false) := by
  rcases a with cause | ⟨⟨code⟩⟩
  · exact .inr ⟨by simp, .inl ⟨cause, rfl⟩⟩
  · by_cases hc : code = some 0
    · subst hc
      exact .inl rfl
    · exact .inr ⟨by simpa using hc, .inr ⟨⟨code⟩, rfl, by simpa [Outcome.success] using hc⟩⟩

/-- What it means for the run that a command it needs did not succeed: it could not be run to its
end, or it was refused. -/
def failureOf (refusal : Outcome → ReleaseError) : Except ReleaseError Outcome → ReleaseError
  | .error failure => failure
  | .ok outcome => refusal outcome

/-- Reports apart, the session is one command, and `failure` says what the command's end means for
the run when it is no success. -/
def IsCommand (env : Surroundings σ) (mode : Mode) (command : Invocation)
    (failure : Except ReleaseError Outcome → ReleaseError) (m : Session σ Unit) : Prop :=
  ∀ w, Ends m w fun xs r w' ↦ ∃ a, xs = [.call ⟨mode, command, a⟩] ∧
    a = (env.execute mode command w.files w.tools).result ∧
    w'.files = (env.execute mode command w.files w.tools).files ∧
    w'.tools = (env.execute mode command w.files w.tools).tools ∧
    (a = .ok ⟨some 0⟩ ∧ r = .ok () ∨ a ≠ .ok ⟨some 0⟩ ∧ r = .error (failure a))

namespace IsCommand

variable {env : Surroundings σ} {mode : Mode} {command : Invocation}
  {failure : Except ReleaseError Outcome → ReleaseError} {m : Session σ Unit}

theorem bind (hm : IsCommand env mode command failure m) {f : Unit → Session σ β} {w : World σ}
    {Q : List Exchange → Except ReleaseError β → World σ → Prop}
    (herror : ∀ a w', a ≠ .ok ⟨some 0⟩ → Q [.call ⟨mode, command, a⟩] (.error (failure a)) w')
    (hok : ∀ w', Ends (f ()) w' fun ys s w'' ↦ Q (.call (.done mode command) :: ys) s w'') :
    Ends (m >>= f) w Q := by
  refine (hm w).bind ?_ ?_
  · intro xs e w' _ h
    obtain ⟨a, rfl, -, -, -, ⟨-, hr⟩ | ⟨ha, hr⟩⟩ := h
    · cases hr
    · cases hr
      exact herror a w' ha
  · intro xs u w' _ h
    obtain ⟨a, rfl, -, -, -, ⟨rfl, -⟩ | ⟨-, hr⟩⟩ := h
    · exact hok w'
    · cases hr

theorem of_attempt {f : Except ReleaseError Outcome → Session σ Unit}
    (hf : ∀ a w, Ends (f a) w fun xs r w' ↦ xs = [] ∧ w'.files = w.files ∧ w'.tools = w.tools ∧
      (a = .ok ⟨some 0⟩ ∧ r = .ok () ∨ a ≠ .ok ⟨some 0⟩ ∧ r = .error (failure a))) :
    IsCommand env mode command failure (attempt env mode command >>= f) := by
  intro w
  refine Ends.attempt_bind fun a w' hw ↦ (hf a w').mono ?_
  intro xs r w'' h
  obtain ⟨rfl, hfiles, htools, hr⟩ := h
  cases hw
  exact ⟨_, rfl, rfl, hfiles, htools, hr⟩

theorem report_bind {r : Report} {f : Unit → Session σ Unit}
    (h : IsCommand env mode command failure (f ())) :
    IsCommand env mode command failure (report r >>= f) :=
  fun w ↦ Ends.report_bind (h (after (report r) w))

theorem then_report (hm : IsCommand env mode command failure m) (r : Report) :
    IsCommand env mode command failure (m >>= fun _ ↦ report r) := by
  intro w
  refine (hm w).bind ?_ ?_
  · intro xs e w' _ h
    exact h
  · intro xs u w' _ h
    refine Ends.report ?_
    rw [List.append_nil]
    exact h

theorem demand (env : Surroundings σ) (command : Invocation) (refusal : Outcome → ReleaseError) :
    IsCommand env .captured command (failureOf refusal) (demand env command refusal) := by
  intro w
  have hrun : Ends (run env command) w fun xs r w' ↦ xs = [.call ⟨.captured, command, r⟩] ∧
      r = (env.execute .captured command w.files w.tools).result ∧
      w'.files = (env.execute .captured command w.files w.tools).files ∧
      w'.tools = (env.execute .captured command w.files w.tools).tools := by
    refine Ends.attempt_bind fun r w' hw ↦ ?_
    obtain ⟨hr, hw⟩ := EStateM.Result.ok.inj hw
    subst hw
    cases r with
    | ok outcome => exact Ends.pure ⟨rfl, hr.symm, rfl, rfl⟩
    | error failure => exact Ends.throw ⟨rfl, hr.symm, rfl, rfl⟩
  refine hrun.bind ?_ ?_
  · intro xs e w' _ h
    obtain ⟨hxs, hr, hfiles, htools⟩ := h
    exact ⟨_, hxs, hr, hfiles, htools, .inr ⟨by simp, rfl⟩⟩
  · intro xs outcome w' _ h
    obtain ⟨rfl, hr, hfiles, htools⟩ := h
    obtain hsuccess | ⟨hne, ⟨cause, hcause⟩ | ⟨_, hrefused, hfalse⟩⟩ := end_cases (.ok outcome)
    · cases hsuccess
      exact Ends.pure ⟨_, rfl, hr, hfiles, htools, .inl ⟨rfl, rfl⟩⟩
    · cases hcause
    · cases hrefused
      rw [hfalse]
      exact Ends.throw ⟨_, rfl, hr, hfiles, htools, .inr ⟨hne, rfl⟩⟩

end IsCommand

end Session

end ReleaseTrain
