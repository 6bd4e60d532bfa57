import ReleaseTrain.Proofs.PushAccount

namespace ReleaseTrain

open Session

/-- A line tells to push a reference if the command for it stands in the line. -/
def Advises (line reference : String) : Prop :=
  (s!"docker push {reference}").toList <:+: line.toList

def Advised (told : List String) (reference : String) : Prop :=
  ∃ line ∈ told, Advises line reference

section Wording

variable {r : ImageReference} {a b u v : List Char}

theorem mem_productionTag {tag : String} (h : isProductionTag tag = true) {c : Char}
    (hc : c ∈ tag.toList) : c = 'v' ∨ c = '.' ∨ c.isDigit = true := by
  unfold isProductionTag at h
  simp only [Bool.and_eq_true, List.all_eq_true] at h
  obtain ⟨-, hnumbers⟩ := h
  have hrest : c = 'v' ∨ c ∈ (Text.after? ['v'] tag.toList).getD tag.toList := by
    cases hafter : Text.after? ['v'] tag.toList with
    | none => exact .inr hc
    | some rest =>
      rw [Text.after?_eq_some_iff.1 hafter] at hc
      exact List.mem_cons.1 hc
  refine hrest.imp_right fun hc ↦ ?_
  by_cases hdot : c = '.'
  · exact .inl hdot
  · obtain ⟨n, hn, hcn⟩ := Text.exists_piece_of_mem hc hdot
    exact .inr ((hnumbers n hn).2 c hcn)

theorem infix_of_production {tag : String} (h : isProductionTag tag = true)
    (hin : u ++ latestTag.toList <:+: v ++ tag.toList) : u ++ latestTag.toList <:+: v := by
  obtain ⟨a, b, hab⟩ := hin
  obtain ⟨c, hc, -⟩ | ⟨c, hc, htag⟩ := List.append_eq_append_iff.1 hab
  · exact ⟨a, c, hc.symm⟩
  · rcases List.eq_nil_or_concat c with rfl | ⟨c', x, rfl⟩
    · rw [List.append_nil] at hc
      exact ⟨a, [], (List.append_nil _).trans hc⟩
    have hlast := congrArg List.getLast? hc
    have hx : x = 't' := by
      simpa [latestTag] using hlast.symm
    have hmem : 't' ∈ tag.toList := by
      rw [htag, hx]
      simp
    have hno := mem_productionTag h hmem
    simp at hno

theorem slash_notMem_registryHost (r : ImageReference) : '/' ∉ r.registryHost.toList := by
  unfold ImageReference.registryHost hostOfSegment
  split
  · rw [String.toList_ofList]
    exact slash_notMem_firstSegment _
  · decide

theorem slash_mem_stem (r : ImageReference) :
    r.registryHost = defaultHost ∨ '/' ∈ r.stem.toList := by
  unfold ImageReference.stem
  dsimp only
  split
  · next hempty =>
    refine .inl ?_
    rw [ImageReference.registryHost, List.isEmpty_iff.1 hempty]
    decide
  · exact .inr (by simp [String.toList_append])

theorem length_le_of_first {x : Char} {p t u : List Char} (h : a ++ p ++ x :: t = b ++ p ++ x :: u)
    (hx : x ∉ a ++ p) : a.length ≤ b.length := by
  obtain ⟨c, hc, -⟩ | ⟨c, hc, ht⟩ := List.append_eq_append_iff.1 h
  · have hlength := congrArg List.length hc
    simp only [List.length_append] at hlength
    omega
  · cases c with
    | nil =>
      have hlength := congrArg List.length hc
      simp only [List.length_append, List.length_nil] at hlength
      omega
    | cons y c =>
      obtain ⟨rfl, -⟩ := List.cons.inj ht
      refine absurd ?_ hx
      rw [hc]
      simp

def pushWords : List Char := "docker push ".toList

def loginWords : List Char := "docker login ".toList

def thenWords : List Char := " && ".toList

theorem toList_push (reference : String) :
    (s!"docker push {reference}").toList = pushWords ++ reference.toList :=
  String.toList_append

theorem toList_login (host reference : String) :
    (s!"docker login {host} && docker push {reference}").toList =
      loginWords ++ host.toList ++ thenWords ++ (pushWords ++ reference.toList) := by
  change (("docker login " ++ host) ++ " && docker push " ++ reference).toList = _
  have hwords : " && docker push ".toList = thenWords ++ pushWords := by decide
  rw [String.toList_append, String.toList_append, String.toList_append, hwords, ← List.append_assoc,
    List.append_assoc _ pushWords]
  rfl

theorem length_le_of_default {t u : List Char}
    (h : loginWords ++ defaultHost.toList ++ thenWords ++ pushWords ++ t = a ++ pushWords ++ u) :
    (loginWords ++ defaultHost.toList ++ thenWords).length ≤ a.length := by
  refine Nat.not_lt.1 fun hlt ↦ ?_
  have hnowhere : ∀ n < (loginWords ++ defaultHost.toList ++ thenWords).length,
      ((loginWords ++ defaultHost.toList ++ thenWords ++ pushWords).drop n).take
        pushWords.length ≠ pushWords := by decide
  have hpush := congrArg (fun l ↦ (l.drop a.length).take pushWords.length) h
  generalize loginWords ++ defaultHost.toList ++ thenWords = login at *
  refine hnowhere a.length hlt ?_
  have hwithin : a.length ≤ (login ++ pushWords).length := by
    rw [List.length_append]
    omega
  have hroom : pushWords.length ≤ ((login ++ pushWords).drop a.length).length := by
    rw [List.length_drop, List.length_append]
    omega
  rwa [List.append_assoc a, List.drop_left, List.take_left, List.drop_append_of_le_length hwithin,
    List.take_append_of_le_length hroom] at hpush

theorem not_advises_latest {line : String} (hproduction : isProductionTag r.tag = true)
    (hline : line = s!"docker push {r.text}" ∨
      line = s!"docker login {r.registryHost} && docker push {r.text}") :
    ¬Advises line (r.withTag latestTag).text := by
  have htext : r.text = r.stem ++ r.tag := r.text_withTag r.tag
  have hlatest : 0 < latestTag.toList.length := by decide
  intro hadvises
  rw [Advises, toList_push, r.text_withTag, String.toList_append, ← List.append_assoc] at hadvises
  obtain rfl | rfl := hline
  · rw [toList_push, htext, String.toList_append, ← List.append_assoc] at hadvises
    have hlength := (infix_of_production hproduction hadvises).length_le
    rw [List.length_append] at hlength
    omega
  · rw [toList_login, htext, String.toList_append, ← List.append_assoc pushWords,
      ← List.append_assoc] at hadvises
    obtain ⟨a, b, hab⟩ := infix_of_production hproduction hadvises
    have hle : (loginWords ++ r.registryHost.toList ++ thenWords).length ≤ a.length := by
      obtain hdefault | hslash := slash_mem_stem r
      · rw [hdefault] at hab ⊢
        refine length_le_of_default (t := r.stem.toList)
          (u := r.stem.toList ++ latestTag.toList ++ b) ?_
        simpa only [List.append_assoc] using hab.symm
      · obtain ⟨begin, rest, hstem, hbegin⟩ := List.eq_append_cons_of_mem hslash
        rw [hstem] at hab
        refine length_le_of_first (p := pushWords ++ begin) (x := '/') (t := rest)
          (u := rest ++ latestTag.toList ++ b) ?_ ?_
        · simpa only [List.append_assoc, List.cons_append] using hab.symm
        · have hwords : '/' ∉ loginWords ∧ '/' ∉ thenWords ∧ '/' ∉ pushWords := by decide
          simp [hwords, slash_notMem_registryHost r, hbegin]
    have hlength := congrArg List.length hab
    simp only [List.length_append] at hlength hle
    omega

end Wording

/-- A line that is shown as it is, without a mark of how things go. -/
def Event.detail? : Event → Option String
  | .reported (.detail line) => some line
  | _ => none

namespace Publish

variable {σ : Type}

/-- Publishing that was asked for ends without all references pushed. -/
inductive Unpublished : Except ReleaseError PublishOutcome → Prop
  | declined : Unpublished (.ok .loginDeclined)
  | refused (host reference : String) : Unpublished (.error (.loginFailed host reference))
  | unattended (host reference : String) :
      Unpublished (.error (.authenticationRequired host reference))
  | unpushed (reference : String) (published : List String) :
      Unpublished (.error (.pushFailed reference published))

/-- What the operator is told to do by hand: the lines shown after a login was declined, or the
command that comes with an error. -/
def advice (m : Session σ PublishOutcome) (w : World σ) : List String :=
  match result m w with
  | .ok .loginDeclined => ((after m w).events.drop w.events.length).filterMap Event.detail?
  | .ok _ => []
  | .error e => e.followUp.toList

theorem push_ne_declined {env : Surroundings σ} {image : BuiltImage} {w w' : World σ} :
    push env image w ≠ .ok .loginDeclined w' := by
  intro h
  obtain ⟨cs, s, -, hs, -⟩ := (ends_push env image w).exchanged
  rw [result_of_ok h] at hs
  cases s <;> cases hs

theorem events_of_declined {env : Surroundings σ} {credentials : Option Path} {image : BuiltImage}
    {options : PublishOptions} {w w' : World σ}
    (h : publish env credentials image options w = .ok .loginDeclined w') :
    ∃ question warning, w'.events = w.events ++
      (.asked question false :: .reported (.warning warning) ::
        image.references.map fun r ↦ .reported (.detail s!"docker push {r.text}")) := by
  obtain ⟨noPush, unchecked⟩ := options
  cases noPush with
  | true =>
    obtain ⟨_, _, -, hskipped⟩ := bind_eq_ok.1 h
    cases hskipped
  | false =>
  cases unchecked with
  | true =>
    obtain ⟨_, _, -, hpush⟩ := bind_eq_ok.1 h
    exact absurd hpush push_ne_declined
  | false =>
  have hcourse : pushAuthenticated env credentials image w = .ok .loginDeclined w' := h
  obtain ⟨state, w₁, hstate, hrest⟩ := bind_eq_ok.1 hcourse
  have hw : w₁ = w := by
    rw [authState_eq] at hstate
    split at hstate <;> cases hstate
    rfl
  subst hw
  cases state with
  | authenticated =>
    obtain ⟨_, _, -, hpush⟩ := bind_eq_ok.1 hrest
    exact absurd hpush push_ne_declined
  | nonInteractive => cases hrest
  | promptAvailable =>
    obtain ⟨answer, w₂, hanswer, hrest⟩ := bind_eq_ok.1 hrest
    cases answer with
    | true =>
      obtain ⟨_, _, -, hpush⟩ := bind_eq_ok.1 hrest
      exact absurd hpush push_ne_declined
    | false =>
      obtain ⟨hno, rfl⟩ := EStateM.Result.ok.inj hanswer
      cases hrest
      rw [hno]
      exact ⟨_, _, (List.append_assoc _ _ _).trans (List.append_assoc _ _ _)⟩

theorem advice_of_declined {env : Surroundings σ} {credentials : Option Path} {image : BuiltImage}
    {options : PublishOptions} {w : World σ}
    (h : result (publish env credentials image options) w = .ok .loginDeclined) :
    advice (publish env credentials image options) w =
      (image.references.map ImageReference.text).map fun r ↦ s!"docker push {r}" := by
  obtain ⟨question, warning, hevents⟩ := events_of_declined (eq_of_result_ok h)
  rw [advice, h]
  dsimp only
  rw [hevents, List.drop_left, List.filterMap_cons_none rfl, List.filterMap_cons_none rfl,
    List.filterMap_map, List.map_map]
  exact congrFun List.filterMap_eq_map image.references

theorem advice_of_error {m : Session σ PublishOutcome} {w : World σ} {e : ReleaseError}
    (h : result m w = .error e) : advice m w = e.followUp.toList := by
  rw [advice, h]

theorem not_unpublished_of_credentials {credentials : Option Path} {fs : FileSystem} {host : String}
    {e : ReleaseError} (h : credentialsFound credentials fs host = .error e) :
    ¬Unpublished (.error e) := by
  obtain ⟨path, hunusable⟩ := unusable_of_credentialsFound h
  cases hunusable <;> exact nofun

variable {interactive : Bool} {found : Except ReleaseError Bool} {image : BuiltImage}
  {xs : List Exchange} {r : Except ReleaseError PublishOutcome} {options : PublishOptions}

theorem Pushing.unpushed_of_unpublished {references : List String} {cs : List Call}
    {s : Except ReleaseError (List String)} (h : Pushing [] references cs s)
    (hr : Unpublished (s.map .pushed)) :
    ∃ reference published,
      s.map PublishOutcome.pushed = .error (.pushFailed reference published) := by
  obtain ⟨rfl, -⟩ | ⟨_, reference, _, _, -, -, rfl, -⟩ := h.account
  · cases hr
  · exact ⟨reference, _, rfl⟩

theorem Publishing.unpublished (h : Publishing interactive found image options xs r)
    (hr : Unpublished r) (hfound : ∀ e, found = .error e → ¬Unpublished (.error e)) :
    r = .ok .loginDeclined ∧ pushed xs = [] ∨
      ∃ e first rest, r = .error e ∧
        image.references.map ImageReference.text = pushed xs ++ first :: rest ∧
        (e.followUp = some s!"docker push {first}" ∨
          first = image.primary.text ∧ e.followUp =
            some s!"docker login {image.primary.registryHost} && docker push {first}") := by
  by_cases hunpushed : ∃ reference published, r = .error (.pushFailed reference published)
  · obtain ⟨reference, published, rfl⟩ := hunpushed
    obtain ⟨rfl, ⟨rest, hrest⟩, -, -⟩ := h.of_pushFailed fun reference published hfailed ↦
      hfound _ hfailed (.unpushed reference published)
    refine .inr ⟨_, reference, rest, rfl, ?_, .inl rfl⟩
    rw [← hrest, List.append_assoc, List.singleton_append]
  · cases h with
    | skipped _ => cases hr
    | unchecked hcs | known _ hcs | loggedIn _ _ hcs =>
      exact absurd (hcs.unpushed_of_unpublished hr) hunpushed
    | unreadable he => exact absurd hr (hfound _ he)
    | declined _ _ => exact .inl ⟨rfl, rfl⟩
    | unattended _ _ => exact .inr ⟨_, _, _, rfl, rfl, .inr ⟨rfl, rfl⟩⟩
    | @refused a _ _ ha =>
      have hnone : (⟨.interactive, loginCommand image.primary.registryHost, a⟩ : Call).effect? =
          none := by
        rw [Call.effect?, Call.succeeded_eq_false ha]
        rfl
      have hpushed : pushed [.asked (loginQuestion image.primary.registryHost) true,
          .call ⟨.interactive, loginCommand image.primary.registryHost, a⟩] = [] := by
        change (effects [_]).filterMap _ = _
        rw [effects_cons, hnone]
        rfl
      exact .inr ⟨_, _, _, rfl, by rw [hpushed]; rfl, .inr ⟨rfl, rfl⟩⟩

/-- The references of an image that are still to be pushed. -/
def unpushed (image : BuiltImage) (xs : List Exchange) : List String :=
  (image.references.map ImageReference.text).filter (· ∉ pushed xs)

theorem unpushed_eq {left : List String}
    (hnodup : (image.references.map ImageReference.text).Nodup)
    (h : image.references.map ImageReference.text = pushed xs ++ left) :
    unpushed image xs = left := by
  rw [h] at hnodup
  have hdisjoint := (List.nodup_append.1 hnodup).2.2
  have hpushed : (pushed xs).filter (· ∉ pushed xs) = [] := by
    simp [List.filter_eq_nil_iff]
  have hleft : left.filter (· ∉ pushed xs) = left := by
    refine List.filter_eq_self.2 fun reference hmem ↦ ?_
    simpa using fun hp ↦ hdisjoint reference hp reference hmem rfl
  rw [unpushed, h, List.filter_append, hpushed, hleft, List.nil_append]

theorem references_split {r : ImageReference} {before rest : List String} {first : String}
    (h : (⟨r, r.latestAlias⟩ : BuiltImage).references.map ImageReference.text =
      before ++ first :: rest) :
    rest = [] ∧ (isProductionTag r.tag = false ∨ r.text ∈ before) ∨
      isProductionTag r.tag = true ∧ before = [] ∧ first = r.text ∧
        rest = [(r.withTag latestTag).text] := by
  cases hproduction : isProductionTag r.tag with
  | false =>
    rw [ImageReference.latestAlias_of_not_production hproduction] at h
    have hlength := congrArg List.length h
    simp only [BuiltImage.references, Option.toList_none, List.map_cons, List.map_nil,
      List.length_cons, List.length_nil, List.length_append] at hlength
    exact .inl ⟨List.length_eq_zero_iff.1 (by omega), .inl rfl⟩
  | true =>
    rw [ImageReference.latestAlias_of_production hproduction] at h
    cases before with
    | nil =>
      obtain ⟨rfl, rfl⟩ := List.cons.inj h
      exact .inr ⟨rfl, rfl, rfl, rfl⟩
    | cons reference before =>
      have hlength := congrArg List.length h
      simp only [BuiltImage.references, Option.toList_some, List.map_cons, List.map_nil,
        List.length_cons, List.length_nil, List.length_append, List.cons_append] at hlength
      obtain ⟨rfl, -⟩ := List.cons.inj h
      exact .inl ⟨List.length_eq_zero_iff.1 (by omega), .inr List.mem_cons_self⟩

theorem advised_of_mem {told : List String} {reference : String} (host : String)
    (h : s!"docker push {reference}" ∈ told ∨
      s!"docker login {host} && docker push {reference}" ∈ told) : Advised told reference := by
  obtain h | h := h
  · exact ⟨_, h, List.infix_rfl⟩
  · refine ⟨_, h, ?_⟩
    rw [Advises, toList_push, toList_login]
    exact (List.suffix_append _ _).isInfix

theorem advised_iff {r : ImageReference} {before rest told : List String} {first : String}
    (hreferences : (⟨r, r.latestAlias⟩ : BuiltImage).references.map ImageReference.text =
      before ++ first :: rest)
    (htold : told = [s!"docker push {first}"] ∨
      told = [s!"docker login {r.registryHost} && docker push {first}"]) :
    (∀ reference ∈ first :: rest, Advised told reference ↔ reference = first) ∧
      ((∀ reference ∈ first :: rest, Advised told reference) ↔
        isProductionTag r.tag = false ∨ r.text ∈ before) := by
  have hfirst : Advised told first := by
    refine advised_of_mem r.registryHost (htold.imp ?_ ?_) <;>
    · intro h
      rw [h]
      exact List.mem_singleton_self _
  obtain ⟨rfl, hbefore⟩ | ⟨hproduction, rfl, rfl, rfl⟩ := references_split hreferences
  · refine ⟨fun reference hmem ↦ ?_, iff_of_true (fun reference hmem ↦ ?_) hbefore⟩
    · rw [List.mem_singleton.1 hmem]
      exact iff_of_true hfirst rfl
    · rw [List.mem_singleton.1 hmem]
      exact hfirst
  · have hlatest : ¬Advised told (r.withTag latestTag).text := by
      rintro ⟨line, hline, hadvises⟩
      refine not_advises_latest hproduction (htold.imp ?_ ?_) hadvises <;>
      · intro h
        rw [h] at hline
        exact List.mem_singleton.1 hline
    refine ⟨fun reference hmem ↦ ?_, iff_of_false (fun h ↦ hlatest (h _ ?_)) ?_⟩
    · obtain rfl | hmem := List.mem_cons.1 hmem
      · exact iff_of_true hfirst rfl
      · rw [List.mem_singleton.1 hmem]
        exact iff_of_false hlatest (Ne.symm (r.text_ne_latest_of_production hproduction))
    · exact List.mem_cons_of_mem _ List.mem_cons_self
    · rw [hproduction]
      exact nofun

/-- What an operator is told about an image when its publishing has ended as `r` says, with some
references pushed and others left. A declined login leads to advice on all that are left, an error
to advice on the first one only. So the advice is complete unless an error ends the publishing
before the production tag of the image has been pushed: then nobody is told to push `latest`. -/
structure Advising (image : ImageReference) (r : Except ReleaseError PublishOutcome)
    (pushed left told : List String) : Prop where
  some_left : left ≠ []
  of_declined : r = .ok .loginDeclined → told = left.map fun reference ↦ s!"docker push {reference}"
  of_error : ∀ e, r = .error e → ∃ first rest, left = first :: rest ∧
    (told = [s!"docker push {first}"] ∨
      told = [s!"docker login {image.registryHost} && docker push {first}"]) ∧
    ∀ reference ∈ left, Advised told reference ↔ reference = first
  complete_iff : (∀ reference ∈ left, Advised told reference) ↔
    r = .ok .loginDeclined ∨ isProductionTag image.tag = false ∨ image.text ∈ pushed

theorem Publishing.advising {image : ImageReference} {told : List String}
    (h : Publishing interactive found ⟨image, image.latestAlias⟩ options xs r)
    (hr : Unpublished r) (hfound : ∀ e, found = .error e → ¬Unpublished (.error e))
    (hdeclined : r = .ok .loginDeclined → told =
      ((⟨image, image.latestAlias⟩ : BuiltImage).references.map ImageReference.text).map fun r ↦
        s!"docker push {r}")
    (herror : ∀ e, r = .error e → told = e.followUp.toList) :
    Advising image r (pushed xs) (unpushed ⟨image, image.latestAlias⟩ xs) told := by
  obtain ⟨rfl, hpushed⟩ | ⟨e, first, rest, rfl, hreferences, hfollow⟩ := h.unpublished hr hfound
  · have hleft := unpushed_eq image.nodup_references
      (show _ = pushed xs ++ _ by rw [hpushed, List.nil_append])
    rw [hleft]
    refine ⟨List.cons_ne_nil _ _, hdeclined, nofun, iff_of_true ?_ (.inl rfl)⟩
    intro reference hmem
    rw [hdeclined rfl]
    exact advised_of_mem "" (.inl (List.mem_map_of_mem hmem))
  · have htold : told = [s!"docker push {first}"] ∨
        told = [s!"docker login {image.registryHost} && docker push {first}"] := by
      rw [herror e rfl]
      obtain hfollow | ⟨-, hfollow⟩ := hfollow
      · exact .inl (by rw [hfollow]; rfl)
      · exact .inr (by rw [hfollow]; rfl)
    obtain ⟨hone, hall⟩ := advised_iff hreferences htold
    rw [unpushed_eq image.nodup_references hreferences]
    refine ⟨List.cons_ne_nil _ _, nofun, fun _ _ ↦ ⟨first, rest, rfl, htold, hone⟩, ?_⟩
    rw [or_iff_right nofun]
    exact hall

/-- Whenever the pushes of an image that was built were to be made and have not all been made, the
operator is told of what is left, though not always of all of it. -/
theorem recovery_advised {τ : Type} {env' : Surroundings τ} {request : BuildRequest} {w₁ : World τ}
    {image : BuiltImage} (hbuilt : result (Image.build env' request) w₁ = .ok image)
    (env : Surroundings σ) (credentials : Option Path) (unchecked : Bool) (w : World σ)
    (hunpublished : Unpublished (result (publish env credentials image ⟨false, unchecked⟩) w)) :
    let m := publish env credentials image ⟨false, unchecked⟩
    Advising request.image (result m w) (pushed (exchanged m w))
      (unpushed image (exchanged m w)) (advice m w) := by
  obtain rfl := Image.eq_of_build hbuilt
  exact (ends_publish env credentials _ ⟨false, unchecked⟩ w).exchanged.advising hunpublished
    (fun _ ↦ not_unpublished_of_credentials) advice_of_declined (fun _ ↦ advice_of_error)

section Rehearsed

def rehearsedRequest : BuildRequest where
  image := ⟨"ghcr.io/acme", "agent", "1.2.3"⟩
  dockerfile := ⟨"/work/Dockerfile"⟩
  context := ⟨"/work"⟩
  platform := "linux/amd64"
  buildConfiguration := "Release"
  version := ⟨"1", "2", "3", none⟩
  noCache := false

def rehearsedImage : BuiltImage :=
  ⟨rehearsedRequest.image, some ⟨"ghcr.io/acme", "agent", "latest"⟩⟩

def beforehand : World Rehearsal.State := ⟨{}, {}, []⟩

theorem recovery_advised_rehearsed :
    let env := Rehearsal.surroundings [{ needed := ["push"], code := some 1 }] false
    let m := publish env none rehearsedImage ⟨false, true⟩
    result (Image.build env rehearsedRequest) beforehand = .ok rehearsedImage ∧
      result m beforehand = .error (.pushFailed "ghcr.io/acme/agent:1.2.3" []) ∧
      Advising rehearsedRequest.image (result m beforehand) (pushed (exchanged m beforehand))
        (unpushed rehearsedImage (exchanged m beforehand)) (advice m beforehand) := by
  intro env m
  have hbuilt : result (Image.build env rehearsedRequest) beforehand = .ok rehearsedImage :=
    eq_ok_of_toOption (by decide +kernel)
  have hfailed : result m beforehand = .error (.pushFailed "ghcr.io/acme/agent:1.2.3" []) := rfl
  refine ⟨hbuilt, hfailed, recovery_advised hbuilt env none true beforehand ?_⟩
  rw [show result (publish env none rehearsedImage ⟨false, true⟩) beforehand = _ from hfailed]
  exact .unpushed _ _

/-- Without credentials and without a terminal the operator is told to log in and to push the
production tag, and then `latest` stays behind. -/
theorem latest_not_advised :
    let env := Rehearsal.surroundings [] false
    let m := publish env none rehearsedImage ⟨false, false⟩
    result (Image.build env rehearsedRequest) beforehand = .ok rehearsedImage ∧
      result m beforehand =
        .error (.authenticationRequired "ghcr.io" "ghcr.io/acme/agent:1.2.3") ∧
      "ghcr.io/acme/agent:latest" ∈ unpushed rehearsedImage (exchanged m beforehand) ∧
      advice m beforehand = ["docker login ghcr.io && docker push ghcr.io/acme/agent:1.2.3"] ∧
      ¬Advised (advice m beforehand) "ghcr.io/acme/agent:latest" := by
  intro env m
  have hadvice : advice m beforehand =
      ["docker login ghcr.io && docker push ghcr.io/acme/agent:1.2.3"] := rfl
  refine ⟨rfl, rfl, by decide +kernel, hadvice, ?_⟩
  rw [hadvice]
  rintro ⟨line, hline, hadvises⟩
  exact not_advises_latest (r := rehearsedRequest.image) (by decide +kernel)
    (.inr (List.mem_singleton.1 hline)) hadvises

end Rehearsed

end Publish

end ReleaseTrain
