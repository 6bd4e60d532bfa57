import ReleaseTrain.Config
import ReleaseTrain.Proofs.DistinctKeys

namespace ReleaseTrain

namespace Toml

namespace Value

def IsText (v : Value) : Prop := ∃ s, v = .string s

def AreTexts (v : Value) : Prop := ∃ ss : List String, v = .array (ss.map .string)

def SameType (v w : Value) : Prop := v.IsText ∧ w.IsText ∨ v.AreTexts ∧ w.AreTexts

variable {u v w : Value}

theorem not_areTexts_of_isText (h : v.IsText) : ¬v.AreTexts := by
  rintro ⟨ss, hss⟩
  obtain ⟨s, rfl⟩ := h
  cases hss

namespace SameType

theorem symm (h : SameType v w) : SameType w v := h.imp And.symm And.symm

theorem trans (h : SameType u v) (h' : SameType v w) : SameType u w := by
  obtain ⟨hu, hv⟩ | ⟨hu, hv⟩ := h <;> obtain ⟨hv', hw⟩ | ⟨hv', hw⟩ := h'
  · exact .inl ⟨hu, hw⟩
  · exact absurd hv' (not_areTexts_of_isText hv)
  · exact absurd hv (not_areTexts_of_isText hv')
  · exact .inr ⟨hu, hw⟩

end SameType

theorem asString_eq_ok_iff {s : String} : v.asString = .ok s ↔ v = .string s := by
  cases v <;> simp [asString]

theorem mapM_asString_eq_ok_iff {items : List Value} {ss : List String} :
    items.mapM asString = .ok ss ↔ items = ss.map .string := by
  induction items generalizing ss with
  | nil => cases ss <;> simp [pure, Except.pure]
  | cons v items ih =>
    rw [List.mapM_cons]
    constructor
    · intro h
      obtain ⟨s, hs, h⟩ := bind_eq_ok.1 h
      obtain ⟨rest, hrest, h⟩ := bind_eq_ok.1 h
      cases h
      rw [List.map_cons, ← ih.1 hrest, asString_eq_ok_iff.1 hs]
    · intro h
      obtain ⟨s, rest, rfl, rfl, hrest⟩ := List.map_eq_cons_iff.1 h.symm
      exact bind_eq_ok.2 ⟨s, rfl, bind_eq_ok.2 ⟨rest, ih.2 hrest.symm, rfl⟩⟩

theorem asStrings_eq_ok_iff {ss : List String} :
    v.asStrings = .ok ss ↔ v = .array (ss.map .string) := by
  cases v with
  | array items =>
    rw [Value.array.injEq]
    exact mapM_asString_eq_ok_iff
  | string _ | scalar _ | table _ => simp [asStrings]

end Value

namespace Table

def put (table : Table) (entry : String × Value) : Table :=
  table.map fun e ↦ if e.1 = entry.1 then (e.1, entry.2) else e

/-- The table has the key, with a value of the same type. -/
def Declares (table : Table) (entry : String × Value) : Prop :=
  ∃ v, table.lookup entry.1 = some v ∧ v.SameType entry.2

def under (table : Table) (name : String) : Table :=
  match table.lookup name with
  | some (.table entries) => entries
  | _ => []

def HasSection (table : Table) (name : String) : Prop :=
  ∀ v, table.lookup name = some v → ∃ entries, v = .table entries

/-- What the entries have under a key, and else what the table has that they are laid over. -/
def overlay (entries table : Table) (key : String) : Option Value :=
  (entries.lookup key).or (table.lookup key)

/-- The entries say what the table has, at least where the usual table has something else. -/
structure Renders (entries table usual : Table) : Prop where
  sound : ∀ e ∈ entries, e ∈ table
  complete : ∀ e ∈ table, e ∈ entries ∨ e ∈ usual

variable {table entries : Table} {e : String × Value} {key : String}

theorem keys_put (table : Table) (e : String × Value) :
    (put table e).map Prod.fst = table.map Prod.fst := by
  rw [put, List.map_map]
  refine List.map_congr_left fun old _ ↦ ?_
  dsimp only [Function.comp_apply]
  split <;> rfl

theorem lookup_put (table : Table) (e : String × Value) (key : String) :
    (put table e).lookup key =
      if key = e.1 then (table.lookup key).map fun _ ↦ e.2 else table.lookup key := by
  induction table with
  | nil => simp [put]
  | cons old table ih =>
    obtain ⟨k, v⟩ := old
    have hhead : (if k = e.1 then (k, e.2) else (k, v)) = (k, if k = e.1 then e.2 else v) := by
      split <;> rfl
    unfold put at ih ⊢
    rw [List.map_cons, hhead, List.lookup_cons, List.lookup_cons, ih]
    by_cases hk : key = k
    · subst hk
      rw [beq_self_eq_true]
      dsimp only
      split <;> rfl
    · rw [beq_false_of_ne hk]

theorem Declares.mem_keys (h : Declares table e) : e.1 ∈ table.map Prod.fst := by
  obtain ⟨v, hv, -⟩ := h
  by_contra hnone
  rw [lookup_eq_none_iff_notMem.2 hnone] at hv
  cases hv

theorem declares_string {old new : String} (h : table.lookup key = some (.string old)) :
    Declares table (key, .string new) :=
  ⟨_, h, .inl ⟨⟨old, rfl⟩, ⟨new, rfl⟩⟩⟩

theorem declares_strings {old new : List String}
    (h : table.lookup key = some (.array (old.map .string))) :
    Declares table (key, .array (new.map .string)) :=
  ⟨_, h, .inr ⟨⟨old, rfl⟩, ⟨new, rfl⟩⟩⟩

theorem declares_put_iff {e' : String × Value} (h : Declares table e) :
    Declares (put table e) e' ↔ Declares table e' := by
  obtain ⟨old, hold, htype⟩ := h
  unfold Declares
  rw [lookup_put]
  by_cases hk : e'.1 = e.1
  · rw [if_pos hk, hk, hold, Option.map_some]
    constructor
    · rintro ⟨v, hv, h⟩
      cases hv
      exact ⟨old, rfl, htype.trans h⟩
    · rintro ⟨v, hv, h⟩
      cases hv
      exact ⟨e.2, rfl, htype.symm.trans h⟩
  · rw [if_neg hk]

theorem lookup_foldl_put (once : (entries.map Prod.fst).Nodup)
    (h : ∀ e ∈ entries, e.1 ∈ table.map Prod.fst) (key : String) :
    (entries.foldl put table).lookup key = overlay entries table key := by
  unfold overlay
  induction entries generalizing table with
  | nil => simp
  | cons e entries ih =>
    rw [List.map_cons, List.nodup_cons] at once
    have htail : ∀ e' ∈ entries, e'.1 ∈ (put table e).map Prod.fst := by
      intro e' he'
      rw [keys_put]
      exact h e' (List.mem_cons_of_mem e he')
    obtain ⟨k, v⟩ := e
    rw [List.foldl_cons, ih once.2 htail, lookup_put, List.lookup_cons]
    by_cases hk : key = k
    · subst hk
      have hnone : entries.lookup key = none := lookup_eq_none_iff_notMem.2 once.1
      have hsome : (table.lookup key).isSome = true := by
        rw [← Option.ne_none_iff_isSome, Ne, lookup_eq_none_iff_notMem, not_not]
        exact h _ List.mem_cons_self
      obtain ⟨old, hold⟩ := Option.isSome_iff_exists.1 hsome
      simp [hnone, hold]
    · rw [if_neg hk, beq_false_of_ne hk]

theorem Renders.overlay_eq {usual : Table} (h : Renders entries table usual)
    (once : (entries.map Prod.fst).Nodup) (once' : (table.map Prod.fst).Nodup)
    (hkeys : usual.map Prod.fst = table.map Prod.fst) (key : String) :
    overlay entries usual key = table.lookup key := by
  unfold overlay
  cases hentry : entries.lookup key with
  | some v =>
    have hmem := h.sound _ ((lookup_eq_some_iff_mem once).1 hentry)
    rw [Option.some_or, (lookup_eq_some_iff_mem once').2 hmem]
  | none =>
    rw [Option.none_or]
    cases htable : table.lookup key with
    | some v =>
      have hmem := h.complete _ ((lookup_eq_some_iff_mem once').1 htable)
      refine (lookup_eq_some_iff_mem (hkeys ▸ once')).2 (hmem.resolve_left fun hin ↦ ?_)
      exact lookup_eq_none_iff_notMem.1 hentry (List.mem_map_of_mem hin)
    | none =>
      rw [lookup_eq_none_iff_notMem] at htable ⊢
      rwa [hkeys]

theorem under_eq {name : String} (h : table.lookup name = some (.table entries)) :
    under table name = entries := by
  rw [under, h]

end Table

variable {table entries : Table}

theorem Value.Distinct.once (h : Value.Distinct (.table entries)) :
    (entries.map Prod.fst).Nodup := by
  cases h with
  | table once _ => exact once

theorem Value.Distinct.under (h : Value.Distinct (.table table)) (name : String) :
    ((table.under name).map Prod.fst).Nodup := by
  unfold Table.under
  split
  · next entries hentries =>
    cases h with
    | table once h => exact (h _ ((lookup_eq_some_iff_mem once).1 hentries)).once
  · exact List.nodup_nil

end Toml

namespace Field

open Toml Toml.Table

variable {α : Type} {view : α → Table} {fields : List (Field α)}

/-- In the view the field is a key with a value of one type; setting the field replaces the value,
and takes every value of that type. -/
structure Shows (view : α → Table) (f : Field α) : Prop where
  sets : ∀ a v b, f.set a v = .ok b → Declares (view a) (f.key, v) ∧ view b = put (view a) (f.key, v)
  takes : ∀ a v, Declares (view a) (f.key, v) → ∃ b, f.set a v = .ok b

theorem shows_string {key : String} {change : α → String → α}
    (hget : ∀ a, ∃ s, (view a).lookup key = some (.string s))
    (hput : ∀ a s, view (change a s) = put (view a) (key, .string s)) :
    (Field.string key change).Shows view := by
  refine ⟨fun a v b h ↦ ?_, fun a v h ↦ ?_⟩
  · cases v with
    | string s =>
      cases h
      obtain ⟨old, hold⟩ := hget a
      exact ⟨declares_string hold, hput a s⟩
    | scalar _ | array _ | table _ => cases h
  · obtain ⟨old, hold⟩ := hget a
    obtain ⟨w, hw, htype⟩ := h
    cases hold.symm.trans hw
    obtain ⟨-, s, rfl⟩ | ⟨hlists, -⟩ := htype
    · exact ⟨change a s, rfl⟩
    · exact absurd hlists (Toml.Value.not_areTexts_of_isText ⟨old, rfl⟩)

theorem shows_strings {key : String} {change : α → List String → α}
    (hget : ∀ a, ∃ ss : List String, (view a).lookup key = some (.array (ss.map .string)))
    (hput : ∀ a ss, view (change a ss) = put (view a) (key, .array (ss.map .string))) :
    (Field.strings key change).Shows view := by
  refine ⟨fun a v b h ↦ ?_, fun a v h ↦ ?_⟩
  · obtain ⟨old, hold⟩ := hget a
    cases hss : v.asStrings with
    | error failure =>
      dsimp only [strings] at h
      rw [hss] at h
      cases h
    | ok ss =>
      dsimp only [strings] at h
      rw [hss] at h
      cases h
      obtain rfl := Toml.Value.asStrings_eq_ok_iff.1 hss
      exact ⟨declares_strings hold, hput a ss⟩
  · obtain ⟨old, hold⟩ := hget a
    obtain ⟨w, hw, htype⟩ := h
    cases hold.symm.trans hw
    obtain ⟨htext, -⟩ | ⟨-, ss, rfl⟩ := htype
    · exact absurd ⟨old, rfl⟩ (Toml.Value.not_areTexts_of_isText htext)
    · refine ⟨change a ss, ?_⟩
      dsimp only [strings]
      rw [Toml.Value.asStrings_eq_ok_iff.2 rfl]
      rfl

/-- The fields of a section all show in its view, which has their keys, always with values of the
same types, and tells one section from another. -/
structure AllShow (fields : List (Field α)) (view : α → Table) : Prop where
  shows : ∀ f ∈ fields, f.Shows view
  keys : ∀ a, (view a).map Prod.fst = fields.map Field.key
  once : (fields.map Field.key).Nodup
  declares : ∀ a b, ∀ e ∈ view b, Declares (view a) e
  injective : Function.Injective view

namespace AllShow

variable (h : AllShow fields view) {a b : α} {e : String × Toml.Value} {entries : Table}
include h

theorem once_view (a : α) : ((view a).map Prod.fst).Nodup := by
  rw [h.keys]
  exact h.once

theorem ext (hview : ∀ key, (view a).lookup key = (view b).lookup key) : a = b :=
  h.injective (eq_of_lookup ((h.keys a).trans (h.keys b).symm) (h.once_view a) hview)

theorem setByKey_sets (hb : setByKey fields a e = .ok b) :
    Declares (view a) e ∧ view b = put (view a) e := by
  unfold setByKey at hb
  split at hb
  · next f hf =>
    have hkey : f.key = e.1 := by simpa using List.find?_some hf
    have hset := (h.shows f (List.mem_of_find?_eq_some hf)).sets a e.2 b hb
    rwa [hkey] at hset
  · cases hb

theorem setByKey_takes (he : Declares (view a) e) : ∃ b, setByKey fields a e = .ok b := by
  unfold setByKey
  cases hf : fields.find? (·.key = e.1) with
  | some f =>
    have hkey : f.key = e.1 := by simpa using List.find?_some hf
    refine (h.shows f (List.mem_of_find?_eq_some hf)).takes a e.2 ?_
    rwa [hkey]
  | none =>
    have hmem := he.mem_keys
    rw [h.keys, List.mem_map] at hmem
    obtain ⟨f, hmem, hkey⟩ := hmem
    exact absurd hkey (by simpa using List.find?_eq_none.1 hf f hmem)

theorem foldlM_isOk_iff : (∃ b, entries.foldlM (setByKey fields) a = .ok b) ↔
    ∀ e ∈ entries, Declares (view a) e := by
  induction entries generalizing a with
  | nil => simp [pure, Except.pure]
  | cons e entries ih =>
    rw [List.forall_mem_cons, List.foldlM_cons]
    constructor
    · rintro ⟨b, hb⟩
      obtain ⟨mid, hmid, hb⟩ := Toml.bind_eq_ok.1 hb
      obtain ⟨he, hview⟩ := h.setByKey_sets hmid
      refine ⟨he, fun e' he' ↦ ?_⟩
      rw [← declares_put_iff he, ← hview]
      exact ih.1 ⟨b, hb⟩ e' he'
    · rintro ⟨he, hentries⟩
      obtain ⟨mid, hmid⟩ := h.setByKey_takes he
      have hrest : ∀ e' ∈ entries, Declares (view mid) e' := by
        intro e' he'
        rw [(h.setByKey_sets hmid).2, declares_put_iff he]
        exact hentries e' he'
      obtain ⟨b, hb⟩ := ih.2 hrest
      exact ⟨b, Toml.bind_eq_ok.2 ⟨mid, hmid, hb⟩⟩

theorem view_foldlM (hb : entries.foldlM (setByKey fields) a = .ok b) :
    view b = entries.foldl put (view a) := by
  induction entries generalizing a with
  | nil =>
    cases hb
    rfl
  | cons e entries ih =>
    rw [List.foldlM_cons] at hb
    obtain ⟨mid, hmid, hb⟩ := Toml.bind_eq_ok.1 hb
    rw [List.foldl_cons, ← (h.setByKey_sets hmid).2]
    exact ih hb

theorem lookup_foldlM (once : (entries.map Prod.fst).Nodup)
    (hb : entries.foldlM (setByKey fields) a = .ok b) (key : String) :
    (view b).lookup key = overlay entries (view a) key := by
  rw [h.view_foldlM hb]
  refine lookup_foldl_put once (fun e he ↦ ?_) key
  exact (h.foldlM_isOk_iff.1 ⟨b, hb⟩ e he).mem_keys

theorem foldlM_of_renders (once : (entries.map Prod.fst).Nodup)
    (hrenders : Renders entries (view b) (view a)) :
    entries.foldlM (setByKey fields) a = .ok b := by
  have hdeclares : ∀ e ∈ entries, Declares (view a) e :=
    fun e he ↦ h.declares a b e (hrenders.sound e he)
  obtain ⟨b', hb'⟩ := h.foldlM_isOk_iff.2 hdeclares
  have hkeys : (view a).map Prod.fst = (view b).map Prod.fst := by rw [h.keys, h.keys]
  have heq : b' = b := h.ext fun key ↦ by
    rw [h.lookup_foldlM once hb', hrenders.overlay_eq once (h.once_view b) hkeys]
  rwa [heq] at hb'

end AllShow

end Field

end ReleaseTrain
