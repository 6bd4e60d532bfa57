import ReleaseTrain.Proofs.InTurn
import ReleaseTrain.Image.Build

namespace ReleaseTrain

inductive Effect
  | build (reference : String)
  | tag (source target : String)
  | push (reference : String)
  deriving DecidableEq, Repr

/-- The reference that a build is to be bound to. All options take a value but the one that turns
off the cache. -/
def targetOption? : List String → Option String
  | "-t" :: reference :: _ => some reference
  | "--no-cache" :: arguments => targetOption? arguments
  | _ :: _ :: arguments => targetOption? arguments
  | _ => none

def Invocation.effect? (i : Invocation) : Option Effect :=
  if i.program = "docker" then
    match i.arguments with
    | "build" :: options => (targetOption? options).map .build
    | "buildx" :: "build" :: options => (targetOption? options).map .build
    | ["tag", source, target] => some (.tag source target)
    | ["push", reference] => some (.push reference)
    | _ => none
  else none

def Call.effect? (c : Call) : Option Effect := if c.succeeded then c.command.effect? else none

def effects (cs : List Call) : List Effect := cs.filterMap Call.effect?

/-- The effects that commands have when all of them succeed. -/
def plannedEffects (planned : List (Mode × Invocation)) : List Effect :=
  planned.filterMap fun step ↦ step.2.effect?

@[simp] theorem effects_nil : effects [] = [] := rfl

@[simp] theorem effects_append (cs ds : List Call) :
    effects (cs ++ ds) = effects cs ++ effects ds := List.filterMap_append

theorem effects_cons (c : Call) (cs : List Call) :
    effects (c :: cs) = c.effect?.toList ++ effects cs := by
  unfold effects
  rw [List.filterMap_cons]
  cases c.effect? <;> rfl

@[simp] theorem plannedEffects_append (planned planned' : List (Mode × Invocation)) :
    plannedEffects (planned ++ planned') = plannedEffects planned ++ plannedEffects planned' :=
  List.filterMap_append

theorem plannedEffects_cons (step : Mode × Invocation) (planned : List (Mode × Invocation)) :
    plannedEffects (step :: planned) = step.2.effect?.toList ++ plannedEffects planned := by
  unfold plannedEffects
  rw [List.filterMap_cons]
  cases step.2.effect? <;> rfl

theorem plannedEffects_eq_nil {planned : List (Mode × Invocation)}
    (h : ∀ step ∈ planned, step.2.program ≠ "docker") : plannedEffects planned = [] := by
  refine List.filterMap_eq_nil_iff.2 fun step hstep ↦ ?_
  exact if_neg (h step hstep)

theorem exists_of_effects_eq_cons {cs : List Call} {e : Effect} {es : List Effect}
    (h : effects cs = e :: es) :
    ∃ pre c post, cs = pre ++ c :: post ∧ effects pre = [] ∧ c.effect? = some e := by
  induction cs with
  | nil => cases h
  | cons c cs ih =>
    rw [effects_cons] at h
    cases hc : c.effect? with
    | some f =>
      rw [hc] at h
      obtain ⟨rfl, -⟩ := List.cons.inj h
      exact ⟨[], c, cs, rfl, rfl, hc⟩
    | none =>
      rw [hc] at h
      obtain ⟨pre, d, post, rfl, hpre, hd⟩ := ih h
      refine ⟨c :: pre, d, post, rfl, ?_, hd⟩
      rw [effects_cons, hc, hpre]
      rfl

theorem effects_of_succeeded {cs : List Call} (h : ∀ c ∈ cs, c.succeeded = true) :
    effects cs = plannedEffects (cs.map Call.order) := by
  induction cs with
  | nil => rfl
  | cons c cs ih =>
    obtain ⟨hc, hcs⟩ := List.forall_mem_cons.1 h
    rw [effects_cons, List.map_cons, plannedEffects_cons, Call.effect?, if_pos hc, ih hcs]
    rfl

namespace InTurn

variable {planned : List (Mode × Invocation)} {cs : List Call} {all : Bool}

theorem exists_concat (h : InTurn planned cs all) {c : Call} (hc : c ∈ cs)
    (hfailed : c.succeeded = false) :
    ∃ ds, cs = ds ++ [c] ∧ effects ds = plannedEffects (ds.map Call.order) := by
  have hne : cs ≠ [] := List.ne_nil_of_mem hc
  have hdrop := h.succeeded_of_mem_dropLast
  have hconcat := List.dropLast_concat_getLast hne
  have hlast : c = cs.getLast hne := by
    rw [← hconcat] at hc
    rcases List.mem_append.1 hc with hc | hc
    · rw [hdrop c hc] at hfailed
      cases hfailed
    · exact List.mem_singleton.1 hc
  refine ⟨cs.dropLast, ?_, effects_of_succeeded hdrop⟩
  rw [hlast, hconcat]

theorem effects_prefix (h : InTurn planned cs all) : effects cs <+: plannedEffects planned := by
  induction h with
  | finished => exact List.prefix_refl []
  | stopped _ => exact List.nil_prefix
  | @next c planned cs all hc _ ih =>
    rw [effects_cons, plannedEffects_cons, Call.effect?, if_pos hc]
    exact (List.prefix_append_right_inj _).2 ih
  | @failed c planned hc =>
    rw [effects_cons, Call.effect?, if_neg (Bool.eq_false_iff.1 hc)]
    exact List.nil_prefix

theorem effects_eq (h : InTurn planned cs true) : effects cs = plannedEffects planned := by
  rw [effects_of_succeeded h.succeeded, h.order_eq]

end InTurn

section Commands

variable (request : BuildRequest) (source target : ImageReference) (host reference : String)

theorem effect?_infoCommand : infoCommand.effect? = none := rfl

theorem effect?_command : request.command.effect? = some (.build request.image.text) := by
  unfold BuildRequest.command Invocation.effect?
  cases request.isMultiPlatform <;> simp [targetOption?]

theorem effect?_tagCommand :
    (tagCommand source target).effect? = some (.tag source.text target.text) := by
  simp [tagCommand, Invocation.effect?]

theorem effect?_loginCommand : (loginCommand host).effect? = none := by
  simp [loginCommand, Invocation.effect?]

theorem effect?_pushCommand : (pushCommand reference).effect? = some (.push reference) := by
  simp [pushCommand, Invocation.effect?]

end Commands

abbrev Bindings := String → Option Nat

namespace Bindings

def Below (n : Nat) (b : Bindings) : Prop := ∀ reference image, b reference = some image → image < n

/-- Binds a reference; without an image to bind it to, it stays as it is. -/
def rebind (b : Bindings) (reference : String) (image : Option Nat) : Bindings :=
  fun r ↦ if r = reference then image.or (b r) else b r

theorem rebind_some (b : Bindings) (reference : String) (image : Nat) :
    b.rebind reference (some image) reference = some image := if_pos rfl

theorem rebind_of_ne (b : Bindings) {reference r : String} (image : Option Nat)
    (h : r ≠ reference) : b.rebind reference image r = b r := if_neg h

theorem Below.mono {b : Bindings} {n m : Nat} (h : Below n b) (hnm : n ≤ m) : Below m b :=
  fun reference image hb ↦ Nat.lt_of_lt_of_le (h reference image hb) hnm

theorem Below.rebind {b : Bindings} {n : Nat} (h : Below n b) {reference : String}
    {image : Option Nat} (himage : ∀ k, image = some k → k < n) :
    Below n (b.rebind reference image) := by
  intro r k hk
  by_cases hr : r = reference
  · subst hr
    rw [Bindings.rebind, if_pos rfl] at hk
    cases himg : image with
    | none =>
      rw [himg] at hk
      exact h r k hk
    | some j =>
      rw [himg] at hk
      exact himage k (himg.trans hk)
  · rw [rebind_of_ne b image hr] at hk
    exact h r k hk

end Bindings

/-- What references are bound to, on the machine and in the registries. Images are numbered as they
are built, and `next` is the number of the one to come: no reference is bound to it yet. -/
structure Docker where
  bound : Bindings
  registry : Bindings
  next : Nat
  bound_below : bound.Below next
  registry_below : registry.Below next

namespace Docker

def empty : Docker where
  bound := fun _ ↦ none
  registry := fun _ ↦ none
  next := 0
  bound_below := by simp [Bindings.Below]
  registry_below := by simp [Bindings.Below]

def apply (d : Docker) : Effect → Docker
  | .build reference => {
      bound := d.bound.rebind reference (some d.next)
      registry := d.registry
      next := d.next + 1
      bound_below := (d.bound_below.mono (Nat.le_succ _)).rebind (by simp)
      registry_below := d.registry_below.mono (Nat.le_succ _)
    }
  | .tag source target => { d with
      bound := d.bound.rebind target (d.bound source)
      bound_below := d.bound_below.rebind (d.bound_below source)
    }
  | .push reference => { d with
      registry := d.registry.rebind reference (d.bound reference)
      registry_below := d.registry_below.rebind (d.bound_below reference)
    }

/-- A command takes effect exactly when it succeeds. -/
def step (d : Docker) (c : Call) : Docker :=
  match c.effect? with
  | some e => d.apply e
  | none => d

def after (d : Docker) (cs : List Call) : Docker := cs.foldl step d

theorem after_eq (d : Docker) (cs : List Call) : d.after cs = (effects cs).foldl apply d := by
  unfold after
  induction cs generalizing d with
  | nil => rfl
  | cons c cs ih =>
    rw [List.foldl_cons, ih, effects_cons, step]
    cases c.effect? <;> rfl

/-- No effect on other references than those that are bound changes what a reference is bound to. -/
theorem bound_foldl_of_ne {r : String} {es : List Effect} (d : Docker)
    (h : ∀ e ∈ es, e ≠ .build r ∧ ∀ s, e ≠ .tag s r) :
    (es.foldl apply d).bound r = d.bound r := by
  induction es generalizing d with
  | nil => rfl
  | cons e es ih =>
    rw [List.foldl_cons, ih _ fun f hf ↦ h f (List.mem_cons_of_mem e hf)]
    obtain ⟨hbuild, htag⟩ := h e List.mem_cons_self
    cases e with
    | build s =>
      refine Bindings.rebind_of_ne _ _ ?_
      rintro rfl
      exact hbuild rfl
    | tag s t =>
      refine Bindings.rebind_of_ne _ _ ?_
      rintro rfl
      exact htag s rfl
    | push s => rfl

theorem step_eq_of_effect? {d : Docker} {c : Call} {e : Effect} (h : c.effect? = some e) :
    d.step c = d.apply e := by
  rw [step, h]

theorem registry_apply_push {d : Docker} {reference : String} {image : Nat}
    (h : d.bound reference = some image) :
    (d.apply (.push reference)).registry reference = some image := by
  change d.registry.rebind reference (d.bound reference) reference = some image
  rw [h]
  exact Bindings.rebind_some _ _ _

theorem registry_apply_of_ne {d : Docker} {e : Effect} {r : String} (h : e ≠ .push r) :
    (d.apply e).registry r = d.registry r := by
  cases e with
  | build s | tag s t => rfl
  | push s =>
    refine Bindings.rebind_of_ne _ _ ?_
    rintro rfl
    exact h rfl

theorem effect?_of_registry_ne {d : Docker} {c : Call} {r : String}
    (h : (d.step c).registry r ≠ d.registry r) : c.effect? = some (.push r) := by
  cases hc : c.effect? with
  | none =>
    rw [step, hc] at h
    exact absurd rfl h
  | some e =>
    by_cases he : e = .push r
    · rw [he]
    · rw [step_eq_of_effect? hc] at h
      exact absurd (registry_apply_of_ne he) h

/-- Among the commands a build of the reference succeeded and bound it to the image. -/
def Built (d : Docker) (cs : List Call) (reference : String) (image : Nat) : Prop :=
  ∃ pre c post, cs = pre ++ c :: post ∧ c.effect? = some (.build reference) ∧
    ((d.after pre).step c).bound reference = some image

theorem built_of_effects {d : Docker} {cs : List Call} {reference : String} {es : List Effect}
    (h : effects cs = .build reference :: es) : d.Built cs reference d.next := by
  obtain ⟨pre, c, post, hcs, hpre, hc⟩ := exists_of_effects_eq_cons h
  refine ⟨pre, c, post, hcs, hc, ?_⟩
  rw [after_eq, hpre, step_eq_of_effect? hc]
  exact d.bound.rebind_some reference d.next

theorem next_unbound (d : Docker) (reference : String) :
    d.bound reference ≠ some d.next ∧ d.registry reference ≠ some d.next := by
  constructor
  · intro h
    exact Nat.lt_irrefl _ (d.bound_below reference d.next h)
  · intro h
    exact Nat.lt_irrefl _ (d.registry_below reference d.next h)

theorem bound_promoted (d : Docker) {primary latest : String} (h : primary ≠ latest) :
    ([.build primary, .tag primary latest, .push primary].foldl apply d).bound latest =
        some d.next ∧
      ([.build primary, .tag primary latest, .push primary].foldl apply d).registry primary =
        some d.next := by
  have hbuilt : (d.apply (.build primary)).bound primary = some d.next :=
    d.bound.rebind_some primary d.next
  have htagged : ((d.apply (.build primary)).apply (.tag primary latest)).bound primary =
      some d.next := by
    refine (Bindings.rebind_of_ne _ _ h).trans hbuilt
  constructor
  · change (d.apply (.build primary)).bound.rebind latest _ latest = _
    rw [hbuilt]
    exact Bindings.rebind_some _ _ _
  · change Bindings.rebind _ primary _ primary = _
    rw [htagged]
    exact Bindings.rebind_some _ _ _

theorem registry_foldl_of_ne {r : String} {es : List Effect} (d : Docker)
    (h : .push r ∉ es) : (es.foldl apply d).registry r = d.registry r := by
  induction es generalizing d with
  | nil => rfl
  | cons e es ih =>
    have he : e ≠ .push r := fun he ↦ h (he ▸ List.mem_cons_self)
    rw [List.foldl_cons, ih _ fun hmem ↦ h (List.mem_cons_of_mem e hmem), registry_apply_of_ne he]

end Docker

end ReleaseTrain
