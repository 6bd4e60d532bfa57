import ReleaseTrain.FileSystem.Operations

namespace ReleaseTrain

open Text (Bytes)

namespace FileSystem

variable {fs fs' : FileSystem} {followLast : Bool} {links : Nat} {here l : Location} {step : Name}
  {steps rest : List Name} {node : Node}

/-- A step that leads to something of that name, if it leads anywhere. -/
structure IsName (step : Name) : Prop where
  ne_here : step ≠ stepHere
  ne_up : step ≠ stepUp
  length_le : step.length ≤ 255

theorem walk_nil (h : fs.get? here = some node) :
    walk fs followLast links here [] = .ok (.found here node) := by
  rw [walk.eq_def, h]

theorem walk_here (h : fs.get? here = some .directory) :
    walk fs followLast links here (stepHere :: rest) = walk fs followLast links here rest := by
  rw [walk.eq_def, h]
  exact if_pos rfl

theorem walk_up (h : fs.get? here = some .directory) :
    walk fs followLast links here (stepUp :: rest) =
      walk fs followLast links here.dropLast rest := by
  rw [walk.eq_def, h]
  exact if_neg (by decide)

theorem walk_name (h : fs.get? here = some .directory) (hstep : IsName step) :
    walk fs followLast links here (step :: rest) =
      match fs.get? (here ++ [step]), rest with
      | none, [] => .ok (.free here step)
      | none, _ :: _ => .error .notFound
      | some (.link target), rest =>
        if rest = [] ∧ !followLast then .ok (.found (here ++ [step]) (.link target))
        else
          match links with
          | 0 => .error .tooManyLinks
          | links + 1 =>
            let route := Route.ofBytes target
            if target = [] then .error .notFound
            else
              walk fs followLast links (if route.fromRoot then [] else here)
                (route.steps ++ (if route.directory then [stepHere] else []) ++ rest)
      | some _, rest => walk fs followLast links (here ++ [step]) rest := by
  rw [walk.eq_def, h]
  exact (if_neg hstep.ne_here).trans
    ((if_neg hstep.ne_up).trans (if_neg (Nat.not_lt.2 hstep.length_le)))

theorem walk_into (h : fs.get? here = some .directory) (hstep : IsName step)
    (hnode : fs.get? (here ++ [step]) = some node) (hlink : ∀ target, node ≠ .link target) :
    walk fs followLast links here (step :: rest) =
      walk fs followLast links (here ++ [step]) rest := by
  rw [walk_name h hstep, hnode]
  cases node with
  | link target => exact absurd rfl (hlink target)
  | file content mode => rfl
  | directory => rfl

/-- Where a target lies, or would lie. -/
def Target.place : Target → Location
  | .found l _ => l
  | .free directory name => directory ++ [name]

theorem get?_of_walk_found (h : walk fs followLast links here steps = .ok (.found l node)) :
    fs.get? l = some node := by
  fun_induction walk fs followLast links here steps <;> simp_all

theorem get?_of_walk_free {name : Name}
    (h : walk fs followLast links here steps = .ok (.free l name)) :
    fs.get? l = some .directory ∧ fs.get? (l ++ [name]) = none := by
  fun_induction walk fs followLast links here steps <;> simp_all

/-- A file that is put where a walk leads, in a free place or in another file's, is what the walk
leads to afterwards. -/
theorem walk_written {target : Target} {content : Content} {mode : Nat}
    (hsame : ∀ m, m ≠ target.place → fs'.get? m = fs.get? m)
    (hfile : fs'.get? target.place = some (.file content mode))
    (hwas : ∀ node, fs.get? target.place = some node → ∃ content mode, node = .file content mode)
    (h : walk fs followLast links here steps = .ok target) :
    walk fs' followLast links here steps = .ok (.found target.place (.file content mode)) := by
  have hdirectory {m : Location} (hm : fs.get? m = some .directory) :
      fs'.get? m = some .directory := by
    rw [hsame m, hm]
    rintro rfl
    obtain ⟨_, _, hnode⟩ := hwas _ hm
    cases hnode
  have hlink {m : Location} {t : Bytes} (hm : fs.get? m = some (.link t)) :
      fs'.get? m = some (.link t) := by
    rw [hsame m, hm]
    rintro rfl
    obtain ⟨_, _, hnode⟩ := hwas _ hm
    cases hnode
  fun_induction walk fs followLast links here steps with
  | case1 | case5 | case7 | case9 | case10 | case13 => cases h
  | case2 links here node hget =>
    cases h
    exact walk_nil hfile
  | case3 links here rest hget ih => rw [walk_here (hdirectory hget), ih h]
  | case4 links here rest hget _ ih => rw [walk_up (hdirectory hget), ih h]
  | case6 links here step hget hhere hup hlength hnone =>
    cases h
    rw [walk_into (hdirectory hget) ⟨hhere, hup, Nat.not_lt.1 hlength⟩ hfile nofun]
    exact walk_nil hfile
  | case8 links here step hget hhere hup hlength t rest hget' hrest =>
    cases h
    obtain ⟨_, _, hnode⟩ := hwas _ hget'
    cases hnode
  | case11 here step hget hhere hup hlength t rest hget' hrest links route ht ih =>
    rw [walk_name (hdirectory hget) ⟨hhere, hup, Nat.not_lt.1 hlength⟩, hlink hget']
    simp only [hrest, ht, if_false]
    exact ih h
  | case12 links here step hget hhere hup hlength node rest hnode hget' ih =>
    have hname : IsName step := ⟨hhere, hup, Nat.not_lt.1 hlength⟩
    obtain ⟨node', hget'', hnode'⟩ :
        ∃ node', fs'.get? (here ++ [step]) = some node' ∧ ∀ t, node' ≠ .link t := by
      by_cases hm : here ++ [step] = target.place
      · exact ⟨.file content mode, hm ▸ hfile, nofun⟩
      · exact ⟨node, (hsame _ hm).trans hget', hnode⟩
    rw [walk_into (hdirectory hget) hname hget'' hnode', ih h]

/-- What a path leads to where it leads to nothing. -/
inductive Absent : Except Failure Target → Prop
  | missing : Absent (.error .notFound)
  | free (directory : Location) (name : Name) : Absent (.ok (.free directory name))

theorem absent_walk_nothing (h : fs.get? here = some .directory) (hstep : IsName step)
    (hnone : fs.get? (here ++ [step]) = none) :
    Absent (walk fs followLast links here (step :: rest)) := by
  rw [walk_name h hstep, hnone]
  cases rest with
  | nil => exact .free _ _
  | cons next rest => exact .missing

/-- Where all that happened is that things went away, a walk goes as it went or comes to nothing. -/
theorem walk_shrunk (hshrunk : ∀ m, fs'.get? m = fs.get? m ∨ fs'.get? m = none) :
    walk fs' followLast links here steps = walk fs followLast links here steps ∨
      Absent (walk fs' followLast links here steps) := by
  have hgone {here : Location} {links : Nat} {steps : List Name} (h : fs'.get? here = none) :
      Absent (walk fs' followLast links here steps) := by
    rw [walk.eq_def, h]
    exact .missing
  have hnext {here : Location} {step : Name} {links : Nat} {rest : List Name}
      (h : fs'.get? here = some .directory) (hname : IsName step) :
      fs'.get? (here ++ [step]) = fs.get? (here ++ [step]) ∨
        Absent (walk fs' followLast links here (step :: rest)) :=
    (hshrunk _).imp_right (absent_walk_nothing h hname)
  obtain hhere | hhere := hshrunk here
  case inr => exact .inr (hgone hhere)
  fun_induction walk fs followLast links here steps with
  | case1 links here steps hget => exact .inr (hgone (hhere.trans hget))
  | case2 links here node hget => exact .inl (walk_nil (hhere.trans hget))
  | case3 links here rest hget ih =>
    rw [walk_here (hhere.trans hget)]
    exact ih hhere
  | case4 links here rest hget _ ih =>
    rw [walk_up (hhere.trans hget)]
    obtain hup | hup := hshrunk here.dropLast
    · exact ih hup
    · exact .inr (hgone hup)
  | case5 links here step rest hget hhere' hup hlength =>
    left
    rw [walk.eq_def, hhere, hget]
    simp [hhere', hup, hlength]
  | case6 links here step hget hhere' hup hlength hnone
  | case7 links here step hget hhere' hup hlength next rest hnone =>
    have hname : IsName step := ⟨hhere', hup, Nat.not_lt.1 hlength⟩
    exact .inr (absent_walk_nothing (hhere.trans hget) hname ((hshrunk _).elim (·.trans hnone) id))
  | case8 links here step hget hhere' hup hlength t rest hget' hrest =>
    refine (hnext (hhere.trans hget) ⟨hhere', hup, Nat.not_lt.1 hlength⟩).imp_left fun hsame ↦ ?_
    rw [walk_name (hhere.trans hget) ⟨hhere', hup, Nat.not_lt.1 hlength⟩, hsame, hget']
    exact if_pos hrest
  | case9 here step hget hhere' hup hlength t rest hget' hrest =>
    refine (hnext (hhere.trans hget) ⟨hhere', hup, Nat.not_lt.1 hlength⟩).imp_left fun hsame ↦ ?_
    rw [walk_name (hhere.trans hget) ⟨hhere', hup, Nat.not_lt.1 hlength⟩, hsame, hget']
    exact if_neg hrest
  | case10 here step hget hhere' hup hlength rest hrest links hget' =>
    refine (hnext (hhere.trans hget) ⟨hhere', hup, Nat.not_lt.1 hlength⟩).imp_left fun hsame ↦ ?_
    rw [walk_name (hhere.trans hget) ⟨hhere', hup, Nat.not_lt.1 hlength⟩, hsame, hget']
    exact (if_neg hrest).trans (if_pos rfl)
  | case11 here step hget hhere' hup hlength t rest hget' hrest links route ht ih =>
    have hname : IsName step := ⟨hhere', hup, Nat.not_lt.1 hlength⟩
    obtain hsame | habsent := hnext (hhere.trans hget) hname
    · rw [walk_name (hhere.trans hget) hname, hsame, hget']
      simp only [hrest, ht, if_false]
      refine ih ?_
      split
      · rfl
      · exact hhere
    · exact .inr habsent
  | case12 links here step hget hhere' hup hlength node rest hnode hget' ih =>
    have hname : IsName step := ⟨hhere', hup, Nat.not_lt.1 hlength⟩
    obtain hsame | habsent := hnext (hhere.trans hget) hname
    · rw [walk_into (hhere.trans hget) hname (hsame.trans hget') hnode]
      exact ih hsame
    · exact .inr habsent
  | case13 links here node step rest hnode hget =>
    left
    rw [walk.eq_def, hhere, hget]
    cases node with
    | directory => exact absurd rfl hnode
    | file content mode | link target => rfl
theorem walk_followed
    (h : ∀ l t, walk fs false links here steps ≠ .ok (.found l (.link t))) :
    walk fs true links here steps = walk fs false links here steps := by
  fun_induction walk fs false links here steps with
  | case1 | case2 | case3 | case4 | case5 | case6 | case7 | case9 | case10 | case13 =>
    rw [walk.eq_def]
    simp_all
  | case8 links here step hget _ _ _ t =>
    exact absurd rfl (h (here ++ [step]) t)
  | case11 here step hget hhere hup hlength t rest hget' hrest links route ht ih =>
    rw [walk_name hget ⟨hhere, hup, Nat.not_lt.1 hlength⟩, hget']
    simp only [ht, Bool.not_true, Bool.false_eq_true, and_false, if_false]
    exact ih h
  | case12 links here step hget hhere hup hlength node rest hnode hget' ih =>
    rw [walk_into hget ⟨hhere, hup, Nat.not_lt.1 hlength⟩ hget' hnode]
    exact ih h

theorem resolve_eq_ok {path : Bytes} {target : Target} :
    fs.resolve path followLast = .ok target ↔ checkPath path = .ok () ∧
      walk fs followLast maxLinks
        (if (Route.ofBytes path).fromRoot then [] else fs.workingDirectory)
        ((Route.ofBytes path).steps ++
          if (Route.ofBytes path).directory then [stepHere] else []) = .ok target := by
  unfold resolve
  cases checkPath path with
  | error failure =>
    constructor
    · intro h
      cases h
    · intro h
      cases h.1
  | ok u =>
    constructor
    · intro h
      exact ⟨rfl, h⟩
    · intro h
      exact h.2

theorem Absent.followed {path : Bytes} (h : Absent (fs.resolve path false)) (followLast : Bool) :
    Absent (fs.resolve path followLast) := by
  cases followLast with
  | false => exact h
  | true =>
    have hsame : fs.resolve path true = fs.resolve path false := by
      unfold resolve
      cases hpath : checkPath path with
      | error failure => rfl
      | ok u =>
        refine walk_followed fun l t hlink ↦ ?_
        rw [resolve_eq_ok.2 ⟨hpath, hlink⟩] at h
        cases h
    rwa [hsame]

section Equations

variable (fs) (path : Bytes)

theorem content_eq : content path fs =
    match fs.resolve path true with
    | .ok (.found _ (.file content _)) => .ok content fs
    | .ok (.found _ _) => .error .isDirectory fs
    | .ok (.free _ _) => .error .notFound fs
    | .error failure => .error failure fs := by
  change EStateM.bind (find path true) _ fs = _
  unfold EStateM.bind find
  rcases fs.resolve path true with failure | ⟨l, node⟩ | ⟨d, name⟩
  · rfl
  · cases node <;> rfl
  · rfl

theorem write_eq (content : Content) : write path content fs =
    match fs.resolve path true with
    | .ok (.found l (.file _ mode)) => .ok () (fs.set l (.file content mode))
    | .ok (.found _ _) => .error .isDirectory fs
    | .ok (.free l name) => .ok () (fs.set (l ++ [name]) (.file content defaultMode))
    | .error failure => .error failure fs := by
  change EStateM.bind (find path true) _ fs = _
  unfold EStateM.bind find
  rcases fs.resolve path true with failure | ⟨l, node⟩ | ⟨d, name⟩
  · rfl
  · cases node <;> rfl
  · rfl

theorem removeFile_eq : removeFile path fs =
    match fs.resolve path false with
    | .ok (.found _ .directory) => .error .isDirectory fs
    | .ok (.found l _) => removeAt l fs
    | .ok (.free _ _) => .error .notFound fs
    | .error failure => .error failure fs := by
  change EStateM.bind (find path false) _ fs = _
  unfold EStateM.bind find
  rcases fs.resolve path false with failure | ⟨l, node⟩ | ⟨d, name⟩
  · rfl
  · cases node <;> rfl
  · rfl

theorem listDirectory_eq : listDirectory fs path =
    match fs.resolve path true with
    | .ok (.found l .directory) => .ok (fs.listed l)
    | .ok (.found _ _) => .error .notDirectory
    | .ok (.free _ _) => .error .notFound
    | .error failure => .error failure := by
  unfold listDirectory
  rcases fs.resolve path true with failure | ⟨l, node⟩ | ⟨d, name⟩
  · rfl
  · cases node <;> rfl
  · rfl

theorem makeDirectory_eq : makeDirectory path fs =
    match fs.resolve (if withoutTrailing path = [] then path else withoutTrailing path) false with
    | .ok (.found _ _) => .error .alreadyExists fs
    | .ok (.free l name) => .ok () (fs.set (l ++ [name]) .directory)
    | .error failure => .error failure fs := by
  change EStateM.bind (find _ false) _ fs = _
  unfold EStateM.bind find
  rcases fs.resolve _ false with failure | ⟨l, node⟩ | ⟨d, name⟩ <;> rfl

theorem clearAt_bind (l : Location) (next : Action Unit) :
    (clearAt l >>= fun _ ↦ next) fs =
      match fs.refusals.lookup l with
      | some left => .error .accessDenied (fs.removeBelow l left)
      | none => next (fs.removeBelow l) := by
  change EStateM.bind (clearAt l) _ fs = _
  unfold EStateM.bind clearAt
  cases fs.refusals.lookup l <;> rfl

theorem removeDirectory_eq : removeDirectory path fs =
    match fs.resolve path false with
    | .ok (.free _ _) => .error .notFound fs
    | .ok (.found _ (.file _ _)) => .error .notDirectory fs
    | .ok (.found l (.link _)) => removeAt l fs
    | .ok (.found l .directory) =>
      match fs.refusals.lookup l with
      | some left => .error .accessDenied (fs.removeBelow l left)
      | none =>
        if fs.isLink (withoutTrailing path) then .error .notDirectory (fs.removeBelow l)
        else if lastStep? path = some stepHere then .error .invalidArgument (fs.removeBelow l)
        else if lastStep? path = some stepUp then
          match (fs.removeBelow l).resolve path false with
          | .ok (.free _ _) => .error .notFound (fs.removeBelow l)
          | .ok (.found _ _) => .error .notEmpty (fs.removeBelow l)
          | .error failure => .error failure (fs.removeBelow l)
        else if l = [] then .error .deviceBusy (fs.removeBelow l)
        else .ok () (fs.removeTree l)
    | .error failure => .error failure fs := by
  change EStateM.bind (find path false) _ fs = _
  unfold EStateM.bind find
  rcases fs.resolve path false with failure | ⟨l, node⟩ | ⟨d, name⟩
  · rfl
  · cases node with
    | file content mode => rfl
    | link target => rfl
    | directory =>
      change (if fs.isLink (withoutTrailing path) = true then _ else _ : Action Unit) fs = _
      dsimp only
      have hclear (next : Action Unit) := clearAt_bind fs l next
      have hremove : removeAt l fs = match fs.refusals.lookup l with
        | some left => .error .accessDenied (fs.removeBelow l left)
        | none => .ok () (fs.removeTree l) := by
        unfold removeAt
        cases fs.refusals.lookup l <;> rfl
      -- Whatever the path's last name is, a refusal comes first.
      cases hrefused : fs.refusals.lookup l with
      | some left =>
        simp only [hrefused] at hclear hremove ⊢
        split
        · exact hclear _
        split
        · exact hclear _
        split
        · exact hclear _
        by_cases hroot : l = []
        · rw [if_pos hroot]
          exact hclear _
        · rw [if_neg hroot]
          exact hremove
      | none =>
        simp only [hrefused] at hclear hremove ⊢
        split
        · exact hclear _
        split
        · exact hclear _
        split
        · refine (hclear _).trans ?_
          change EStateM.bind (find path false) _ (fs.removeBelow l) =
            match (fs.removeBelow l).resolve path false with
            | .ok (.free _ _) => .error .notFound (fs.removeBelow l)
            | .ok (.found _ _) => .error .notEmpty (fs.removeBelow l)
            | .error failure => .error failure (fs.removeBelow l)
          unfold EStateM.bind find
          rcases (fs.removeBelow l).resolve path false with failure | ⟨l', node⟩ | ⟨d, name⟩ <;> rfl
        by_cases hroot : l = []
        · rw [if_pos hroot]
          refine (hclear _).trans ?_
          exact (if_pos hroot).symm
        · rw [if_neg hroot]
          exact hremove.trans (if_neg hroot).symm
  · rfl

end Equations

theorem resolve_written {path : Bytes} {target : Target} {content : Content} {mode : Nat}
    (hwas : ∀ node, fs.get? target.place = some node → ∃ content mode, node = .file content mode)
    (h : fs.resolve path true = .ok target) :
    (fs.set target.place (.file content mode)).resolve path true =
      .ok (.found target.place (.file content mode)) := by
  obtain ⟨hpath, hwalk⟩ := resolve_eq_ok.1 h
  have hroot : target.place ≠ [] := by
    intro hplace
    rw [hplace] at hwas
    obtain ⟨_, _, hnode⟩ := hwas _ (get?_root fs)
    cases hnode
  exact resolve_eq_ok.2 ⟨hpath, walk_written (fun m hm ↦ get?_set_of_ne _ hm)
    (get?_set_self _ hroot) hwas hwalk⟩

theorem write_place {path : Bytes} {c : Content} (h : write path c fs = .ok () fs') :
    ∃ target mode, fs.resolve path true = .ok target ∧
      (∀ node, fs.get? target.place = some node → ∃ content mode, node = .file content mode) ∧
      fs' = fs.set target.place (.file c mode) ∧
      fs'.resolve path true = .ok (.found target.place (.file c mode)) := by
  rw [write_eq] at h
  cases hr : fs.resolve path true with
  | error failure =>
    rw [hr] at h
    cases h
  | ok target =>
    rw [hr] at h
    obtain ⟨-, hwalk⟩ := resolve_eq_ok.1 hr
    cases target with
    | free d name =>
      cases h
      have hwas : ∀ node, fs.get? (d ++ [name]) = some node →
          ∃ content mode, node = .file content mode := by
        intro node hnode
        rw [(get?_of_walk_free hwalk).2] at hnode
        cases hnode
      exact ⟨.free d name, defaultMode, rfl, hwas, rfl, resolve_written hwas hr⟩
    | found l node =>
      cases node with
      | directory | link t => cases h
      | file old mode =>
        cases h
        have hwas : ∀ node, fs.get? l = some node → ∃ content mode, node = .file content mode := by
          intro node hnode
          exact ⟨old, mode, Option.some.inj (hnode.symm.trans (get?_of_walk_found hwalk))⟩
        exact ⟨.found l (.file old mode), mode, rfl, hwas, rfl, resolve_written hwas hr⟩

theorem content_of_write {path : Bytes} {c : Content} (h : write path c fs = .ok () fs') :
    content path fs' = .ok c fs' := by
  obtain ⟨target, mode, -, -, -, hfound⟩ := write_place h
  rw [content_eq, hfound]

end FileSystem

end ReleaseTrain
