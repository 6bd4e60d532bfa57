import ReleaseTrain.Proofs.Resolution
import ReleaseTrain.Proofs.Routes

namespace ReleaseTrain

open Text (Bytes)

namespace FileSystem

variable {fs fs' : FileSystem} {l m k x y root cwd : Location} {name : Name} {node : Node}

/-- Nothing stands in a place twice, and what stands somewhere stands in a directory. -/
structure WellFormed (fs : FileSystem) : Prop where
  once : (fs.entries.map Prod.fst).Nodup
  above : ∀ l name, fs.get? (l ++ [name]) ≠ none → fs.get? l = some .directory

theorem mem_entries (hl : l ≠ []) (h : fs.get? l = some node) : (l, node) ∈ fs.entries := by
  unfold get? at h
  rw [if_neg hl] at h
  obtain ⟨before, after, hentries, -⟩ := List.lookup_eq_some_iff.1 h
  simp [hentries]

theorem isBelow_eq_true : isBelow l m = true ↔ l <+: m ∧ l ≠ m := by
  unfold isBelow
  rw [Bool.and_eq_true, List.isPrefixOf_iff_prefix, decide_eq_true_iff]

theorem isCleared_eq_true {left : List Location} :
    isCleared l left m = true ↔ isBelow l m = true ∧ ∀ k ∈ left, ¬m <+: k := by
  unfold isCleared
  simp only [Bool.and_eq_true, Bool.not_eq_true', List.any_eq_false, List.isPrefixOf_iff_prefix]

namespace WellFormed

theorem directory_above (h : fs.WellFormed) (hk : k ≠ []) (hl : fs.get? (l ++ k) ≠ none) :
    fs.get? l = some .directory := by
  induction k generalizing l with
  | nil => exact absurd rfl hk
  | cons name k ih =>
    by_cases hnil : k = []
    · subst hnil
      exact h.above l name hl
    · rw [List.append_cons] at hl
      refine h.above l name ?_
      rw [ih hnil hl]
      simp

theorem directory_of_prefix (h : fs.WellFormed) (hm : m <+: l) (hne : m ≠ l)
    (hl : fs.get? l ≠ none) : fs.get? m = some .directory := by
  obtain ⟨k, rfl⟩ := hm
  exact h.directory_above (fun hk ↦ hne (by rw [hk, List.append_nil])) hl

theorem none_of_prefix (h : fs.WellFormed) (hm : m <+: l) (hnone : fs.get? m = none) :
    fs.get? l = none := by
  by_cases hne : m = l
  · exact hne ▸ hnone
  · cases hl : fs.get? l with
    | none => rfl
    | some node =>
      have hdirectory := h.directory_of_prefix hm hne (by simp [hl])
      rw [hnone] at hdirectory
      cases hdirectory

theorem set (h : fs.WellFormed) (hd : fs.get? l = some .directory)
    (hbelow : node = .directory ∨ fs.get? (l ++ [name]) ≠ some .directory) :
    (fs.set (l ++ [name]) node).WellFormed := by
  refine ⟨?_, fun m n hmn ↦ ?_⟩
  · change (List.map Prod.fst ((l ++ [name], node) :: fs.entries.filter (·.1 ≠ l ++ [name]))).Nodup
    rw [List.map_cons, List.nodup_cons]
    refine ⟨?_, List.Nodup.sublist (List.filter_sublist.map _) h.once⟩
    intro hmem
    obtain ⟨e, he, heq⟩ := List.mem_map.1 hmem
    exact of_decide_eq_true (List.mem_filter.1 he).2 heq
  by_cases heq : m ++ [n] = l ++ [name]
  · obtain ⟨rfl, -⟩ := List.append_inj' heq rfl
    rwa [get?_set_of_ne]
    intro hself
    simpa using congrArg List.length hself
  rw [get?_set_of_ne _ heq] at hmn
  by_cases hm : m = l ++ [name]
  · subst hm
    obtain rfl | hbelow := hbelow
    · exact get?_set_self _ (by simp)
    · exact absurd (h.above _ n hmn) hbelow
  · rw [get?_set_of_ne _ hm]
    exact h.above m n hmn

theorem removeTree (h : fs.WellFormed) (l : Location) : (fs.removeTree l).WellFormed := by
  refine ⟨List.Nodup.sublist (List.filter_sublist.map _) h.once, fun m n hmn ↦ ?_⟩
  rw [get?_removeTree (by simp)] at hmn
  split at hmn
  · exact absurd rfl hmn
  next hprefix =>
  have hm := h.above m n hmn
  by_cases hroot : m = []
  · subst hroot
    rfl
  rw [get?_removeTree hroot, if_neg, hm]
  intro hl
  rw [List.isPrefixOf_iff_prefix] at hl hprefix
  exact hprefix (hl.trans (List.prefix_append m [n]))

theorem removeBelow (h : fs.WellFormed) (l : Location) (left : List Location) :
    (fs.removeBelow l left).WellFormed := by
  refine ⟨List.Nodup.sublist (List.filter_sublist.map _) h.once, fun m n hmn ↦ ?_⟩
  rw [get?_removeBelow] at hmn
  split at hmn
  · exact absurd rfl hmn
  next hcleared =>
  rw [get?_removeBelow, if_neg, h.above m n hmn]
  intro hm
  refine hcleared ⟨?_, by simp⟩
  obtain ⟨hbelow, hleft⟩ := isCleared_eq_true.1 hm.1
  obtain ⟨hl, -⟩ := isBelow_eq_true.1 hbelow
  refine isCleared_eq_true.2 ⟨isBelow_eq_true.2 ⟨hl.trans (List.prefix_append m [n]), fun heq ↦ ?_⟩,
    fun k hk hmk ↦ hleft k hk ((List.prefix_append m [n]).trans hmk)⟩
  have hlength := hl.length_le
  rw [heq, List.length_append, List.length_singleton] at hlength
  omega

theorem of_entries (honce : (fs.entries.map Prod.fst).Nodup)
    (habove : ∀ e ∈ fs.entries, fs.get? e.1.dropLast = some .directory) : fs.WellFormed := by
  refine ⟨honce, fun l name hname ↦ ?_⟩
  obtain ⟨node, hnode⟩ := Option.ne_none_iff_exists'.1 hname
  have hdirectory := habove _ (mem_entries (by simp) hnode)
  rwa [List.dropLast_concat] at hdirectory

end WellFormed

/-- No symbolic link stands at the location or on the way to it. -/
def Direct (fs : FileSystem) (l : Location) : Prop :=
  ∀ m, m <+: l → ∀ target, fs.get? m ≠ some (.link target)

theorem Direct.of_prefix (h : fs.Direct l) (hm : m <+: l) : fs.Direct m :=
  fun k hk ↦ h k (hk.trans hm)

/-- No symbolic link stands at the place, above it or beneath it. -/
def LinkFree (fs : FileSystem) (root : Location) : Prop :=
  ∀ m, m <+: root ∨ root <+: m → ∀ target, fs.get? m ≠ some (.link target)

theorem LinkFree.of_entries (h : ∀ e ∈ fs.entries, ∀ target, e.2 ≠ .link target)
    (root : Location) : fs.LinkFree root := by
  intro m _ target hget
  by_cases hm : m = []
  · subst hm
    cases hget
  · exact h _ (mem_entries hm hget) target rfl

theorem LinkFree.direct (h : fs.LinkFree root) (hl : root <+: l) : fs.Direct l :=
  fun m hm ↦ h m (List.prefix_or_prefix_of_prefix hm hl)

/-- Neither place lies in the other one, nor are they the same. -/
def Apart (l m : Location) : Prop := ¬l <+: m ∧ ¬m <+: l

namespace Apart

theorem symm (h : Apart l m) : Apart m l := ⟨h.2, h.1⟩

theorem beneath (h : Apart l m) (hx : l <+: x) (hy : m <+: y) : Apart x y := by
  constructor
  · intro hxy
    exact (List.prefix_or_prefix_of_prefix (hx.trans hxy) hy).elim h.1 h.2
  · intro hyx
    exact (List.prefix_or_prefix_of_prefix hx (hy.trans hyx)).elim h.1 h.2

theorem of_ne {a b : Name} (h : a ≠ b) (l : Location) : Apart (l ++ [a]) (l ++ [b]) := by
  constructor
  · intro hab
    exact h (by simpa using hab)
  · intro hba
    exact h.symm (by simpa using hba)

end Apart

/-- What a path to a location can lead to, when it names the location. -/
inductive Leads (fs : FileSystem) (l : Location) : Except Failure Target → Prop
  | found {node : Node} : fs.get? l = some node → Leads fs l (.ok (.found l node))
  | free {d : Location} {name : Name} : l = d ++ [name] → fs.get? d = some .directory →
      fs.get? l = none → Leads fs l (.ok (.free d name))
  | missing : fs.get? l = none → Leads fs l (.error .notFound)
  | refused {e : Failure} : e ≠ .notFound → Leads fs l (.error e)

section Walk

variable {followLast : Bool} {links : Nat} {here : Location} {steps : List Name} {path : Bytes}

theorem walk_missing (h : fs.get? here = none) :
    walk fs followLast links here steps = .error .notFound := by
  rw [walk.eq_def, h]

theorem walk_through (h : fs.get? here = some node) (hnode : node ≠ .directory) :
    walk fs followLast links here (name :: steps) = .error .notDirectory := by
  rw [walk.eq_def, h]
  cases node with
  | directory => exact absurd rfl hnode
  | file content mode => rfl
  | link target => rfl

theorem walk_long (h : fs.get? here = some .directory) (hhere : name ≠ stepHere)
    (hup : name ≠ stepUp) (hlong : 255 < name.length) :
    walk fs followLast links here (name :: steps) = .error .nameTooLong := by
  rw [walk.eq_def, h]
  simp only [hhere, hup, hlong, if_true, if_false]

theorem leads_walk (hfs : fs.WellFormed) (hup : stepUp ∉ steps)
    (hlinks : ∀ m, here <+: m → m <+: here ++ steps.filter (· ≠ stepHere) →
      ∀ target, fs.get? m ≠ some (.link target)) :
    Leads fs (here ++ steps.filter (· ≠ stepHere)) (walk fs followLast links here steps) := by
  induction steps generalizing here with
  | nil =>
    rw [List.filter_nil, List.append_nil]
    cases hget : fs.get? here with
    | none =>
      rw [walk_missing hget]
      exact .missing hget
    | some node =>
      rw [walk_nil hget]
      exact .found hget
  | cons step steps ih =>
    have hup' : stepUp ∉ steps := fun h ↦ hup (List.mem_cons_of_mem step h)
    have hstep : step ≠ stepUp := fun h ↦ hup (h ▸ List.mem_cons_self)
    cases hget : fs.get? here with
    | none =>
      rw [walk_missing hget]
      exact .missing (hfs.none_of_prefix (List.prefix_append _ _) hget)
    | some node =>
    by_cases hnode : node = .directory
    case neg =>
      rw [walk_through hget hnode]
      exact .refused (by simp)
    subst hnode
    by_cases hhere : step = stepHere
    · subst hhere
      rw [List.filter_cons_of_neg (by simp)] at hlinks ⊢
      rw [walk_here hget]
      exact ih hup' hlinks
    rw [List.filter_cons_of_pos (by simpa using hhere), List.append_cons] at hlinks ⊢
    by_cases hlong : 255 < step.length
    · rw [walk_long hget hhere hstep hlong]
      exact .refused (by simp)
    have hname : IsName step := ⟨hhere, hstep, Nat.not_lt.1 hlong⟩
    have hway : here ++ [step] <+: here ++ [step] ++ steps.filter (· ≠ stepHere) :=
      List.prefix_append _ _
    cases hnext : fs.get? (here ++ [step]) with
    | none =>
      rw [walk_name hget hname, hnext]
      cases steps with
      | nil =>
        rw [List.filter_nil, List.append_nil]
        exact .free rfl hget hnext
      | cons next steps => exact .missing (hfs.none_of_prefix hway hnext)
    | some node =>
      rw [walk_into hget hname hnext]
      · exact ih hup' fun m hm hm' ↦ hlinks m ((List.prefix_append _ _).trans hm) hm'
      · rintro target rfl
        exact hlinks _ (List.prefix_append _ _) hway target hnext

/-- Only what stands on the way to a place, and there, matters for a walk to it. -/
theorem walk_congr (hup : stepUp ∉ steps)
    (hlinks : ∀ m, here <+: m → m <+: here ++ steps.filter (· ≠ stepHere) →
      ∀ target, fs.get? m ≠ some (.link target))
    (hsame : ∀ m, here <+: m → m <+: here ++ steps.filter (· ≠ stepHere) →
      fs'.get? m = fs.get? m) :
    walk fs' followLast links here steps = walk fs followLast links here steps := by
  have hhere' := hsame here (List.prefix_refl here) (List.prefix_append _ _)
  induction steps generalizing here with
  | nil =>
    cases hget : fs.get? here with
    | none => rw [walk_missing hget, walk_missing (hhere'.trans hget)]
    | some node => rw [walk_nil hget, walk_nil (hhere'.trans hget)]
  | cons step steps ih =>
    have hup' : stepUp ∉ steps := fun h ↦ hup (List.mem_cons_of_mem step h)
    have hstep : step ≠ stepUp := fun h ↦ hup (h ▸ List.mem_cons_self)
    cases hget : fs.get? here with
    | none => rw [walk_missing hget, walk_missing (hhere'.trans hget)]
    | some node =>
    by_cases hnode : node = .directory
    case neg => rw [walk_through hget hnode, walk_through (hhere'.trans hget) hnode]
    subst hnode
    by_cases hhere : step = stepHere
    · subst hhere
      rw [List.filter_cons_of_neg (by simp)] at hlinks hsame
      rw [walk_here hget, walk_here (hhere'.trans hget)]
      exact ih hup' hlinks hsame hhere'
    rw [List.filter_cons_of_pos (by simpa using hhere), List.append_cons] at hlinks hsame
    by_cases hlong : 255 < step.length
    · rw [walk_long hget hhere hstep hlong, walk_long (hhere'.trans hget) hhere hstep hlong]
    have hname : IsName step := ⟨hhere, hstep, Nat.not_lt.1 hlong⟩
    have hway : here ++ [step] <+: here ++ [step] ++ steps.filter (· ≠ stepHere) :=
      List.prefix_append _ _
    have hnext' := hsame _ (List.prefix_append _ _) hway
    cases hnext : fs.get? (here ++ [step]) with
    | none =>
      rw [walk_name hget hname, walk_name (hhere'.trans hget) hname, hnext', hnext]
      cases steps <;> rfl
    | some node =>
      have hlink : ∀ target, node ≠ .link target := by
        rintro target rfl
        exact hlinks _ (List.prefix_append _ _) hway target hnext
      rw [walk_into hget hname hnext hlink,
        walk_into (hhere'.trans hget) hname (hnext'.trans hnext) hlink]
      exact ih hup' (fun m hm hm' ↦ hlinks m ((List.prefix_append _ _).trans hm) hm')
        (fun m hm hm' ↦ hsame m ((List.prefix_append _ _).trans hm) hm') hnext'

end Walk

section Resolve

variable {followLast : Bool} {path : Bytes}

theorem resolve_of_checkPath (h : checkPath path = .ok ()) :
    fs.resolve path followLast = walk fs followLast maxLinks
      (if (Route.ofBytes path).fromRoot then [] else fs.workingDirectory)
      ((Route.ofBytes path).steps ++
        if (Route.ofBytes path).directory then [stepHere] else []) := by
  unfold resolve
  rw [h]
  rfl

theorem resolve_of_checkPath_error {e : Failure} (h : checkPath path = .error e) :
    fs.resolve path followLast = .error e := by
  unfold resolve
  rw [h]
  rfl

theorem checkPath_ne_notFound (h : path ≠ []) : checkPath path ≠ .error .notFound := by
  unfold checkPath
  split
  · simp
  · split
    · simp
    · simp

theorem Names.filter_steps (h : Names fs.workingDirectory path l) :
    (if (Route.ofBytes path).fromRoot then [] else fs.workingDirectory) ++
      ((Route.ofBytes path).steps ++
        if (Route.ofBytes path).directory then [stepHere] else []).filter (· ≠ stepHere) = l := by
  rw [List.filter_append, ← h.eq, placeOf]
  cases (Route.ofBytes path).directory <;> exact congrArg _ (List.append_nil _)

theorem Names.no_up_steps (h : Names fs.workingDirectory path l) :
    stepUp ∉ (Route.ofBytes path).steps ++
      if (Route.ofBytes path).directory then [stepHere] else [] := by
  rw [List.mem_append]
  refine fun hup ↦ hup.elim (fun hmem ↦ h.no_up (stepUp_mem_iff.2 hmem)) ?_
  split <;> simp [stepUp, stepHere]

theorem leads_resolve (hfs : fs.WellFormed) (hn : Names fs.workingDirectory path l)
    (hlinks : fs.Direct l) (hne : path ≠ []) : Leads fs l (fs.resolve path followLast) := by
  cases hcheck : checkPath path with
  | error e =>
    rw [resolve_of_checkPath_error hcheck]
    exact .refused fun he ↦ checkPath_ne_notFound hne (he ▸ hcheck)
  | ok u =>
    rw [resolve_of_checkPath hcheck]
    have hplace := hn.filter_steps
    rw [← hplace]
    exact leads_walk hfs hn.no_up_steps fun m _ hm ↦ hlinks m (hplace ▸ hm)

theorem resolve_congr (hn : Names fs.workingDirectory path l) (hlinks : fs.Direct l)
    (hcwd : fs'.workingDirectory = fs.workingDirectory)
    (hsame : ∀ m, m <+: l → fs'.get? m = fs.get? m) :
    fs'.resolve path followLast = fs.resolve path followLast := by
  cases hcheck : checkPath path with
  | error e => rw [resolve_of_checkPath_error hcheck, resolve_of_checkPath_error hcheck]
  | ok u =>
    have hplace := hn.filter_steps
    rw [resolve_of_checkPath hcheck, resolve_of_checkPath hcheck, hcwd]
    exact walk_congr hn.no_up_steps (fun m _ hm ↦ hlinks m (hplace ▸ hm))
      fun m _ hm ↦ hsame m (hplace ▸ hm)

end Resolve

end FileSystem

end ReleaseTrain
