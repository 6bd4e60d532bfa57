import ReleaseTrain.Proofs.AcceptedReference
import ReleaseTrain.Proofs.Authorisation

namespace ReleaseTrain

open Session

namespace Text

variable {sep : Char} {cs ds : List Char}

theorem trimEnd_append_seps (sep : Char) (cs : List Char) (n : Nat) :
    trimEnd sep (cs ++ List.replicate n sep) = trimEnd sep cs := by
  unfold trimEnd
  rw [List.reverse_append, List.reverse_replicate, List.dropWhile_append_of_pos (by simp)]

theorem trimEnd_eq_nil_iff : trimEnd sep cs = [] ↔ ∀ c ∈ cs, c = sep := by
  simp [trimEnd]

theorem getLast?_trimEnd (sep : Char) (cs : List Char) : (trimEnd sep cs).getLast? ≠ some sep := by
  have hhead := List.head?_dropWhile_not (· == sep) cs.reverse
  unfold trimEnd
  rw [List.getLast?_reverse]
  intro hlast
  rw [hlast] at hhead
  simp at hhead

theorem trimEnd_append (h : ∃ c ∈ ds, c ≠ sep) (cs : List Char) :
    trimEnd sep (cs ++ ds) = cs ++ trimEnd sep ds := by
  have hne : ds.reverse.dropWhile (· == sep) ≠ [] := by
    intro hnil
    obtain ⟨c, hc, hsep⟩ := h
    refine hsep (trimEnd_eq_nil_iff.1 ?_ c hc)
    rw [trimEnd, hnil, List.reverse_nil]
  unfold trimEnd
  rw [List.reverse_append, List.dropWhile_append, if_neg (by simpa using hne),
    List.reverse_append, List.reverse_reverse]

end Text

/-- What a registry's text or a credential's key may begin with. -/
def schemes : List String := ["https://", "http://"]

section Host

variable {cs ds : List Char} {scheme : String}

theorem withoutScheme_append (h : scheme ∈ schemes) (cs : List Char) :
    withoutScheme (scheme.toList ++ cs) = cs := by
  unfold schemes at h
  simp only [List.mem_cons, List.not_mem_nil, or_false] at h
  rcases h with rfl | rfl <;> rfl

theorem withoutScheme_of_schemeless (h : ∀ scheme ∈ schemes, ¬scheme.toList <+: cs) :
    withoutScheme cs = cs := by
  have hnone {scheme : String} (hscheme : scheme ∈ schemes) :
      Text.after? scheme.toList cs = none :=
    Option.eq_none_iff_forall_ne_some.2 fun rest hrest ↦
      h scheme hscheme ⟨rest, (Text.after?_eq_some_iff.1 hrest).symm⟩
  unfold withoutScheme
  rw [hnone (by simp [schemes] : "https://" ∈ schemes),
    hnone (by simp [schemes] : "http://" ∈ schemes)]
  rfl

theorem scheme_or_not (cs : List Char) :
    (∃ scheme ∈ schemes, cs = scheme.toList ++ withoutScheme cs) ∨
      ∀ scheme ∈ schemes, ¬scheme.toList <+: cs := by
  by_cases h : ∃ scheme ∈ schemes, scheme.toList <+: cs
  · obtain ⟨scheme, hscheme, rest, rfl⟩ := h
    exact .inl ⟨scheme, hscheme, by rw [withoutScheme_append hscheme]⟩
  · exact .inr fun scheme hscheme hbegins ↦ h ⟨scheme, hscheme, hbegins⟩

theorem getLast?_scheme (h : scheme ∈ schemes) : scheme.toList.getLast? = some '/' := by
  unfold schemes at h
  simp only [List.mem_cons, List.not_mem_nil, or_false] at h
  rcases h with rfl | rfl <;> rfl

theorem withoutScheme_of_notMem (h : '/' ∉ cs) : withoutScheme cs = cs :=
  withoutScheme_of_schemeless fun _ hscheme hbegins ↦
    h (hbegins.subset (List.mem_of_getLast? (getLast?_scheme hscheme)))

theorem withoutScheme_trimEnd (h : ∃ c ∈ withoutScheme cs, c ≠ '/') :
    withoutScheme (Text.trimEnd '/' cs) = Text.trimEnd '/' (withoutScheme cs) := by
  rcases scheme_or_not cs with ⟨scheme, hscheme, hcs⟩ | hno
  · generalize withoutScheme cs = rest at hcs h
    rw [hcs, Text.trimEnd_append h, withoutScheme_append hscheme]
  · rw [withoutScheme_of_schemeless hno]
    refine withoutScheme_of_schemeless fun scheme hscheme hbegins ↦ hno scheme hscheme ?_
    exact hbegins.trans (List.rdropWhile_prefix (· == '/') cs)

theorem withoutScheme_trimEnd_ne_nil (h : ∃ c ∈ cs, c ≠ '/') :
    withoutScheme (Text.trimEnd '/' cs) ≠ [] := by
  intro hnil
  rcases scheme_or_not (Text.trimEnd '/' cs) with ⟨scheme, hscheme, hcs⟩ | hno
  · rw [hnil, List.append_nil] at hcs
    exact Text.getLast?_trimEnd '/' cs (hcs ▸ getLast?_scheme hscheme)
  · rw [withoutScheme_of_schemeless hno] at hnil
    obtain ⟨c, hc, hsep⟩ := h
    exact hsep (Text.trimEnd_eq_nil_iff.1 hnil c hc)

theorem firstSegment_of_notMem (h : '/' ∉ cs) : firstSegment cs = cs := by
  refine List.takeWhile_eq_self_iff.2 fun c hc ↦ ?_
  exact decide_eq_true fun heq ↦ h (heq ▸ hc)

theorem firstSegment_append_sep (cs ds : List Char) :
    firstSegment (cs ++ '/' :: ds) = firstSegment cs := by
  unfold firstSegment
  rw [List.takeWhile_append]
  split
  · next hlength =>
    rw [List.takeWhile_cons_of_neg (by simp), List.append_nil]
    exact ((List.takeWhile_prefix _).eq_of_length hlength).symm
  · rfl

end Host

/-- The host that a reference's text begins with: its first segment, if that can be a host. -/
def namedHost (text : String) : String :=
  let first := text.toList.takeWhile (· ≠ '/')
  if '.' ∈ first ∨ ':' ∈ first ∨ first = "localhost".toList then .ofList first else "docker.io"

theorem namedHost_eq (text : String) :
    namedHost text = hostOfSegment (firstSegment text.toList) := by
  simp [namedHost, hostOfSegment, firstSegment, defaultHost, or_assoc]

namespace ImageReference

variable {registry : String} {cs : List Char}

theorem toList_registry_new (registry name tag : String) :
    (new registry name tag).registry.toList = Text.trimEnd '/' registry.toList :=
  String.toList_ofList

theorem new_append_seps (registry name tag : String) (n : Nat) :
    new (registry ++ .ofList (List.replicate n '/')) name tag = new registry name tag := by
  unfold new
  rw [String.toList_append, String.toList_ofList, Text.trimEnd_append_seps]

theorem text_of_ne_nil {r : ImageReference} (h : withoutScheme r.registry.toList ≠ []) :
    r.text.toList = withoutScheme r.registry.toList ++ '/' :: (r.name ++ ":" ++ r.tag).toList := by
  unfold text
  dsimp only
  rw [if_neg (by simpa using h)]
  simp [String.toList_append]

/-- Text and host see of a registry only what follows its scheme. -/
theorem text_eq_and_host_eq {r r' : ImageReference}
    (h : withoutScheme r'.registry.toList = withoutScheme r.registry.toList)
    (hname : r'.name = r.name) (htag : r'.tag = r.tag) :
    r'.text = r.text ∧ r'.registryHost = r.registryHost := by
  unfold text registryHost
  rw [h, hname, htag]
  exact ⟨rfl, rfl⟩

theorem namedHost_text {r : ImageReference} (h : withoutScheme r.registry.toList ≠ []) :
    namedHost r.text = r.registryHost := by
  rw [namedHost_eq, text_of_ne_nil h, firstSegment_append_sep]
  rfl

end ImageReference

namespace Pipeline

variable {σ : Type} {env : Surroundings σ} {credentials : Option Path} {plan : Plan} {w : World σ}
  {xs : List Exchange} {r : Except ReleaseError RunOutcome} {i : ImagePlan} {v : Version}

theorem Course.host_of_login (h : Course env credentials plan w xs r) (hi : plan.image = some i)
    (hv : Version.parse plan.version = .ok v) {host : String}
    (hlogin : loginCommand host ∈ issued "login" xs) : host = (i.reference v).registryHost := by
  obtain ⟨c, hc, hcommand, hverb⟩ := mem_issued.1 hlogin
  obtain ⟨pre, post, hxs⟩ := List.append_of_mem hc
  have hpermitted := (h.permitted pre c post hxs).2 (hcommand ▸ hverb)
  obtain ⟨j, u, hj, hu, horder, -⟩ := hpermitted
  cases hi.symm.trans hj
  cases hv.symm.trans hu
  have heq := hcommand.symm.trans (Prod.mk.inj horder).2
  simpa [loginCommand] using heq

theorem Course.text_of_push (h : Course env credentials plan w xs r) (hi : plan.image = some i)
    (hv : Version.parse plan.version = .ok v) {text : String}
    (hpush : pushCommand text ∈ issued "push" xs) :
    ∃ tag, text = ((i.reference v).withTag tag).text := by
  have hmem := (h.issued_push_prefix hi hv).subset hpush
  rcases List.mem_cons.1 hmem with hprimary | hlatest
  · have htext : text = (i.reference v).text := by simpa [pushCommand] using hprimary
    exact ⟨(i.reference v).tag, htext⟩
  · split at hlatest
    · exact ⟨latestTag, by simpa [pushCommand] using hlatest⟩
    · cases hlatest

end Pipeline

namespace ImageReference

/-- If there is anything but separators in a registry's text, then the host that a reference to the
registry is printed with is the host of the registry. Separators at the end of the text and a scheme
at its beginning change neither. So a run that logs in and pushes logs in to the host that it pushes
to. -/
theorem authenticated_host {registry : String} (h : ∃ c ∈ registry.toList, c ≠ '/')
    (name tag : String) :
    let r := new registry name tag
    namedHost r.text = r.registryHost ∧
      (∀ n, let r' := new (registry ++ .ofList (List.replicate n '/')) name tag
        r'.text = r.text ∧ r'.registryHost = r.registryHost) ∧
      ((∀ scheme ∈ schemes, ¬scheme.toList <+: registry.toList) → ∀ scheme ∈ schemes,
        let r' := new (scheme ++ registry) name tag
        r'.text = r.text ∧ r'.registryHost = r.registryHost) ∧
      ∀ (σ : Type) (env : Surroundings σ) credentials plan w i v, plan.image = some i →
        i.registry = registry → Version.parse plan.version = .ok v →
        let xs := exchanged (Pipeline.run env credentials plan) w
        ∀ host text, loginCommand host ∈ issued "login" xs → pushCommand text ∈ issued "push" xs →
          namedHost text = host := by
  intro r
  refine ⟨?_, fun n ↦ ?_, fun hno scheme hscheme ↦ ?_, ?_⟩
  · exact namedHost_text (toList_registry_new registry name tag ▸ withoutScheme_trimEnd_ne_nil h)
  · rw [new_append_seps]
    exact ⟨rfl, rfl⟩
  · refine text_eq_and_host_eq ?_ rfl rfl
    have hbare : withoutScheme registry.toList = registry.toList := withoutScheme_of_schemeless hno
    have hadded : withoutScheme (scheme ++ registry).toList = registry.toList := by
      rw [String.toList_append, withoutScheme_append hscheme]
    rw [toList_registry_new, toList_registry_new, withoutScheme_trimEnd (hadded.symm ▸ h),
      withoutScheme_trimEnd (hbare.symm ▸ h), hadded, hbare]
  · rintro σ env credentials plan w i v hi rfl hv xs host text hlogin hpush
    have hcourse := Pipeline.course_run env credentials plan w
    obtain ⟨t, rfl⟩ := hcourse.text_of_push hi hv hpush
    rw [hcourse.host_of_login hi hv hlogin]
    exact namedHost_text (r := (i.reference v).withTag t)
      (toList_registry_new i.registry _ _ ▸ withoutScheme_trimEnd_ne_nil h)

theorem authenticated_host_port :
    let r := new "localhost:5000/team//" "agent" "1.2.3"
    r.text = "localhost:5000/team/agent:1.2.3" ∧ namedHost r.text = "localhost:5000" ∧
      (new "https://localhost:5000/team//" "agent" "1.2.3").registryHost = "localhost:5000" := by
  intro r
  have htext : r.text = "localhost:5000/team/agent:1.2.3" := by decide +kernel
  have hhost : r.registryHost = "localhost:5000" := by decide +kernel
  obtain ⟨hnamed, -, hscheme, -⟩ :=
    authenticated_host (show ∃ c ∈ "localhost:5000/team//".toList, c ≠ '/' from
      ⟨'t', by decide, by decide⟩) "agent" "1.2.3"
  refine ⟨htext, hnamed.trans hhost, ?_⟩
  exact (hscheme (by decide) "https://" List.mem_cons_self).2.trans hhost

end ImageReference

end ReleaseTrain
