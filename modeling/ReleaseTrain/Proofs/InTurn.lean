import ReleaseTrain.Proofs.Exchange

namespace ReleaseTrain

/-- Of the commands planned these were run: in their order, and none after one that failed.
The flag says whether all of them were run and succeeded. -/
inductive InTurn : List (Mode × Invocation) → List Call → Bool → Prop
  | finished : InTurn [] [] true
  | stopped (planned : List (Mode × Invocation)) : InTurn planned [] false
  | next {c : Call} {planned : List (Mode × Invocation)} {cs : List Call} {all : Bool} :
      c.succeeded = true → InTurn planned cs all → InTurn (c.order :: planned) (c :: cs) all
  | failed {c : Call} (planned : List (Mode × Invocation)) :
      c.succeeded = false → InTurn (c.order :: planned) [c] false

namespace InTurn

variable {planned planned' : List (Mode × Invocation)} {cs ds : List Call} {all : Bool}

theorem order_prefix (h : InTurn planned cs all) : cs.map Call.order <+: planned := by
  induction h with
  | finished => exact List.prefix_refl []
  | stopped planned => exact List.nil_prefix
  | next _ _ ih => exact List.cons_prefix_cons.2 ⟨rfl, ih⟩
  | failed planned _ => exact List.cons_prefix_cons.2 ⟨rfl, List.nil_prefix⟩

theorem succeeded_of_mem_dropLast (h : InTurn planned cs all) :
    ∀ c ∈ cs.dropLast, c.succeeded = true := by
  induction h with
  | finished | stopped _ | failed _ _ => simp
  | @next c planned cs all hc _ ih =>
    cases cs with
    | nil => simp
    | cons d cs =>
      rw [List.dropLast_cons_cons]
      exact List.forall_mem_cons.2 ⟨hc, ih⟩

theorem order_eq (h : InTurn planned cs true) : cs.map Call.order = planned := by
  generalize hall : true = all at h
  induction h with
  | finished => rfl
  | stopped _ | failed _ _ => cases hall
  | next _ _ ih => rw [List.map_cons, ih hall]

theorem succeeded (h : InTurn planned cs true) : ∀ c ∈ cs, c.succeeded = true := by
  generalize hall : true = all at h
  induction h with
  | finished => simp
  | stopped _ | failed _ _ => cases hall
  | next hc _ ih => exact List.forall_mem_cons.2 ⟨hall ▸ hc, ih hall⟩

theorem done_mem (h : InTurn planned cs true) {step : Mode × Invocation} (hstep : step ∈ planned) :
    .done step.1 step.2 ∈ cs := by
  rw [← h.order_eq] at hstep
  obtain ⟨c, hc, rfl⟩ := List.mem_map.1 hstep
  have hresult := Call.succeeded_iff.1 (h.succeeded c hc)
  obtain ⟨mode, command, result⟩ := c
  subst hresult
  exact hc

theorem all_eq_false (h : InTurn planned cs all) {c : Call} (hc : c ∈ cs)
    (hfailed : c.succeeded = false) : all = false := by
  cases all with
  | false => rfl
  | true =>
    rw [h.succeeded c hc] at hfailed
    cases hfailed

theorem append (h : InTurn planned cs true) (h' : InTurn planned' ds all) :
    InTurn (planned ++ planned') (cs ++ ds) all := by
  generalize htrue : true = finished at h
  induction h with
  | finished => exact h'
  | stopped _ | failed _ _ => cases htrue
  | next hc _ ih => exact .next hc (ih htrue)

theorem append_planned (h : InTurn planned cs false) (planned' : List (Mode × Invocation)) :
    InTurn (planned ++ planned') cs false := by
  generalize hfalse : false = all at h
  induction h with
  | finished => cases hfalse
  | stopped planned => exact .stopped _
  | next hc _ ih => exact .next hc (ih hfalse)
  | failed planned hc => exact .failed _ hc

theorem done {mode : Mode} {command : Invocation} (h : InTurn planned cs all) :
    InTurn ((mode, command) :: planned) (.done mode command :: cs) all :=
  .next (Call.succeeded_done mode command) h

theorem failed_of_ne {mode : Mode} {command : Invocation} {r : Except ReleaseError Outcome}
    (planned : List (Mode × Invocation)) (h : r ≠ .ok ⟨some 0⟩) :
    InTurn ((mode, command) :: planned) [⟨mode, command, r⟩] false := by
  have hc : (⟨mode, command, r⟩ : Call).succeeded = false := Call.succeeded_eq_false h
  exact .failed planned hc

end InTurn

namespace Session

variable {σ α β : Type}

/-- The session asks nothing and runs the commands planned in turn; when it ends well all of them
have succeeded and its result is as `post` says. -/
def CarriesOut (m : Session σ α) (planned : List (Mode × Invocation)) (post : α → Prop) : Prop :=
  ∀ w, Ends m w fun xs r _ ↦ ∃ cs : List Call, xs = cs.map .call ∧ InTurn planned cs r.isOk ∧
    ∀ a, r = .ok a → post a

namespace CarriesOut

variable {m : Session σ α} {f : α → Session σ β} {planned planned' : List (Mode × Invocation)}
  {post : α → Prop} {post' : β → Prop}

theorem bind (hm : CarriesOut m planned post)
    (hf : ∀ a, post a → CarriesOut (f a) planned' post') :
    CarriesOut (m >>= f) (planned ++ planned') post' := by
  intro w
  refine (hm w).bind ?_ ?_
  · intro xs e w' _ h
    obtain ⟨cs, hxs, hcs, -⟩ := h
    exact ⟨cs, hxs, hcs.append_planned planned', by simp⟩
  · intro xs a w' _ h
    obtain ⟨cs, rfl, hcs, ha⟩ := h
    refine (hf a (ha a rfl) w').mono ?_
    intro ys r w'' h
    obtain ⟨ds, rfl, hds, hr⟩ := h
    exact ⟨cs ++ ds, List.map_append.symm, hcs.append hds, hr⟩

theorem silent (hm : Silent m) (hpost : ∀ w a w', m w = .ok a w' → post a) :
    CarriesOut m [] post := by
  intro w
  refine (hm.ends w).mono ?_
  intro xs r w' h
  obtain ⟨rfl, rfl, -⟩ := h
  cases hw : m w with
  | ok a w' =>
    rw [result_of_ok hw]
    refine ⟨[], rfl, .finished, ?_⟩
    intro a h
    cases h
    exact hpost w a w' hw
  | error e w' =>
    rw [result_of_error hw]
    exact ⟨[], rfl, .stopped [], by simp⟩

theorem of_silent (hm : Silent m) : CarriesOut m [] fun _ ↦ True := silent hm fun _ _ _ _ ↦ trivial

theorem silent_bind (hm : Silent m) (hf : ∀ a, CarriesOut (f a) planned' post') :
    CarriesOut (m >>= f) planned' post' := (of_silent hm).bind fun a _ ↦ hf a

theorem pure {a : α} (ha : post a) : CarriesOut (Pure.pure a : Session σ α) [] post := by
  refine silent (Silent.pure a) ?_
  intro w b w' h
  cases h
  exact ha

theorem of_isCommand {env : Surroundings σ} {mode : Mode} {command : Invocation}
    {failure : Except ReleaseError Outcome → ReleaseError} {m : Session σ Unit}
    (h : IsCommand env mode command failure m) :
    CarriesOut m [(mode, command)] fun _ ↦ True := by
  intro w
  refine (h w).mono ?_
  intro xs r w' h
  obtain ⟨a, rfl, -, -, -, ⟨rfl, rfl⟩ | ⟨ha, rfl⟩⟩ := h
  · exact ⟨[_], rfl, .done .finished, fun _ _ ↦ trivial⟩
  · exact ⟨[_], rfl, .failed_of_ne [] ha, fun _ _ ↦ trivial⟩

end CarriesOut

end Session

end ReleaseTrain
