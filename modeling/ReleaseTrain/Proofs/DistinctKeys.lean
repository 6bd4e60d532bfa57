import ReleaseTrain.Proofs.Lookup
import ReleaseTrain.Toml.Document

namespace ReleaseTrain.Toml

theorem bind_eq_ok {α β : Type} {m : Except Failure α} {f : α → Except Failure β} {b : β} :
    (m >>= f) = .ok b ↔ ∃ a, m = .ok a ∧ f a = .ok b := by
  cases m <;> simp [bind, Except.bind]

inductive Value.Distinct : Value → Prop
  | string (text : String) : Distinct (.string text)
  | scalar (kind : ScalarKind) : Distinct (.scalar kind)
  | array {items : List Value} (h : ∀ v ∈ items, Distinct v) : Distinct (.array items)
  | table {entries : List (String × Value)} (once : (entries.map Prod.fst).Nodup)
      (h : ∀ e ∈ entries, Distinct e.2) : Distinct (.table entries)

inductive Node.Distinct : Node → Prop
  | leaf {value : Value} (h : value.Distinct) : Distinct (.leaf value)
  | table {origin : Origin} {entries : List (String × Node)} (once : (entries.map Prod.fst).Nodup)
      (h : ∀ e ∈ entries, Distinct e.2) : Distinct (.table origin entries)
  | tables {items : List (List (String × Node))}
      (once : ∀ entries ∈ items, (entries.map Prod.fst).Nodup)
      (h : ∀ entries ∈ items, ∀ e ∈ entries, Distinct e.2) : Distinct (.tables items)

namespace Entries

structure Distinct (entries : Entries) : Prop where
  once : (entries.map Prod.fst).Nodup
  nodes : ∀ e ∈ entries, e.2.Distinct

theorem distinct_nil : Distinct [] := ⟨List.nodup_nil, by simp⟩

theorem distinct_table {origin : Origin} {entries : Entries} :
    (Node.table origin entries).Distinct ↔ entries.Distinct := by
  constructor
  · intro h
    cases h with
    | table once nodes => exact ⟨once, nodes⟩
  · exact fun h ↦ .table h.once h.nodes

theorem distinct_tables {items : List Entries} :
    (Node.tables items).Distinct ↔ ∀ entries ∈ items, entries.Distinct := by
  constructor
  · intro h entries hentries
    cases h with
    | tables once nodes => exact ⟨once entries hentries, nodes entries hentries⟩
  · exact fun h ↦ .tables (fun entries he ↦ (h entries he).once) fun entries he ↦
      (h entries he).nodes

/-- The change leaves every key at one entry. -/
def Keeps (change : Change) : Prop :=
  ∀ {origin : Origin} {entries changed : Entries}, change origin entries = .ok changed →
    entries.Distinct → changed.Distinct

variable {entries changed : Entries} {key : String} {node : Node} {change : Change}

namespace Distinct

theorem get? (h : Distinct entries) (hget : entries.get? key = some node) : node.Distinct :=
  h.nodes _ ((lookup_eq_some_iff_mem h.once).1 hget)

theorem set (h : Distinct entries) (hnode : node.Distinct) : (entries.set key node).Distinct := by
  unfold Entries.set
  split
  · have hkeys : (entries.map fun e ↦ if e.1 = key then (e.1, node) else (e.1, e.2)).map Prod.fst =
        entries.map Prod.fst := by
      rw [List.map_map]
      refine List.map_congr_left fun e _ ↦ ?_
      dsimp only [Function.comp_apply]
      split <;> rfl
    refine ⟨hkeys ▸ h.once, fun e he ↦ ?_⟩
    obtain ⟨old, hold, rfl⟩ := List.mem_map.1 he
    dsimp only
    split
    · exact hnode
    · exact h.nodes old hold
  · next hnew =>
    have hkey : key ∉ entries.map Prod.fst :=
      lookup_eq_none_iff_notMem.1 (Option.not_isSome_iff_eq_none.1 hnew)
    refine ⟨?_, fun e he ↦ ?_⟩
    · rw [List.map_append]
      refine h.once.append (List.nodup_singleton key) ?_
      simpa using hkey
    · obtain he | he := List.mem_append.1 he
      · exact h.nodes e he
      · obtain rfl := List.mem_singleton.1 he
        exact hnode

end Distinct

theorem keeps_changeAt (hchange : Keeps change) (dotted : Bool) (path : List String) :
    Keeps (changeAt dotted change path) := by
  induction path with
  | nil => exact hchange
  | cons key path ih =>
    intro origin entries changed h hentries
    unfold changeAt at h
    split at h
    · obtain ⟨inner, hinner, h⟩ := bind_eq_ok.1 h
      cases h
      exact hentries.set (distinct_table.2 (ih hinner distinct_nil))
    · next old inner hget =>
      have hold := distinct_table.1 (hentries.get? hget)
      dsimp only at h
      split at h
      · cases h
      · obtain ⟨inner', hinner, h⟩ := bind_eq_ok.1 h
        cases h
        exact hentries.set (distinct_table.2 (ih hinner hold))
    · next items hget =>
      have hitems := distinct_tables.1 (hentries.get? hget)
      obtain ⟨last, hlast, h⟩ := bind_eq_ok.1 h
      cases h
      have hbefore : Distinct (items.getLast?.getD []) := by
        cases hlast : items.getLast? with
        | none => exact distinct_nil
        | some entries => exact hitems entries (List.mem_of_getLast? hlast)
      refine hentries.set (distinct_tables.2 fun entries he ↦ ?_)
      obtain he | he := List.mem_append.1 he
      · exact hitems entries (List.dropLast_subset items he)
      · obtain rfl := List.mem_singleton.1 he
        exact ih hlast hbefore
    · cases h

theorem keeps_openTable (key : String) : Keeps (openTable key) := by
  intro origin entries changed h hentries
  unfold openTable at h
  split at h
  · cases h
    exact hentries.set (distinct_table.2 distinct_nil)
  · next inner hget =>
    cases h
    exact hentries.set (distinct_table.2 (distinct_table.1 (hentries.get? hget)))
  · cases h

theorem keeps_openElement (key : String) : Keeps (openElement key) := by
  intro origin entries changed h hentries
  have hnew {items : List Entries} (h : ∀ entries ∈ items, entries.Distinct) :
      (Node.tables (items ++ [[]])).Distinct := by
    refine distinct_tables.2 fun entries he ↦ ?_
    obtain he | he := List.mem_append.1 he
    · exact h entries he
    · obtain rfl := List.mem_singleton.1 he
      exact distinct_nil
  unfold openElement at h
  split at h
  · cases h
    exact hentries.set (hnew fun entries he ↦ absurd he List.not_mem_nil)
  · next items hget =>
    cases h
    exact hentries.set (hnew (distinct_tables.1 (hentries.get? hget)))
  · cases h

theorem keeps_assign (path : List String) (key : String) {value : Value} (hvalue : value.Distinct) :
    Keeps (assign path key value) := by
  refine keeps_changeAt ?_ true path
  intro origin entries changed h hentries
  dsimp only at h
  split at h
  · cases h
  · cases h
    exact hentries.set (.leaf hvalue)

end Entries

theorem keys_toTable (entries : Entries) : (toTable entries).map Prod.fst = entries.map Prod.fst := by
  induction entries with
  | nil => rfl
  | cons e entries ih => rw [toTable, List.map_cons, List.map_cons, ih]

mutual

theorem Node.Distinct.toValue : ∀ {node : Node}, node.Distinct → node.toValue.Distinct
  | .leaf _, .leaf h => h
  | .table _ entries, .table once h => .table (keys_toTable entries ▸ once) (distinct_toTable h)
  | .tables _, .tables once h => .array (distinct_toTables once h)

theorem distinct_toTable : ∀ {entries : List (String × Node)}, (∀ e ∈ entries, e.2.Distinct) →
    ∀ e ∈ Toml.toTable entries, e.2.Distinct
  | [], _, _, he => absurd he List.not_mem_nil
  | (_, _) :: _, h, e, he => by
    obtain rfl | he := List.mem_cons.1 he
    · exact (h _ List.mem_cons_self).toValue
    · exact distinct_toTable (fun e he ↦ h e (List.mem_cons_of_mem _ he)) e he

theorem distinct_toTables : ∀ {items : List (List (String × Node))},
    (∀ entries ∈ items, (entries.map Prod.fst).Nodup) →
      (∀ entries ∈ items, ∀ e ∈ entries, e.2.Distinct) → ∀ v ∈ toTables items, v.Distinct
  | [], _, _, _, hv => absurd hv List.not_mem_nil
  | entries :: _, once, h, v, hv => by
    obtain rfl | hv := List.mem_cons.1 hv
    · exact .table (keys_toTable entries ▸ once entries List.mem_cons_self)
        (distinct_toTable (h entries List.mem_cons_self))
    · exact distinct_toTables (fun es hes ↦ once es (List.mem_cons_of_mem _ hes))
        (fun es hes ↦ h es (List.mem_cons_of_mem _ hes)) v hv

end

theorem Entries.Distinct.toTable {entries : Entries} (h : entries.Distinct) :
    Value.Distinct (.table (Toml.toTable entries)) :=
  .table (keys_toTable entries ▸ h.once) (distinct_toTable h.nodes)

namespace Reader

/-- Whatever the reader returns, `P` holds of it. -/
def Yields {α : Type} (m : Reader α) (P : α → Prop) : Prop :=
  ∀ (cs rest : List Char) (a : α), m.run cs = .ok (a, rest) → P a

namespace Yields

variable {α β : Type} {m : Reader α} {f : α → Reader β} {P : α → Prop} {Q : β → Prop}

theorem pure {a : α} (h : P a) : Yields (Pure.pure a) P := by
  intro cs rest b hb
  cases hb
  exact h

theorem bind (hm : Yields m P) (hf : ∀ a, P a → Yields (f a) Q) : Yields (m >>= f) Q := by
  intro cs rest b hb
  rw [StateT.run_bind] at hb
  obtain ⟨⟨a, mid⟩, ha, hb⟩ := bind_eq_ok.1 hb
  exact hf a (hm cs mid a ha) mid rest b hb

theorem andThen (hf : ∀ a, Yields (f a) Q) : Yields (m >>= f) Q := by
  intro cs rest b hb
  rw [StateT.run_bind] at hb
  obtain ⟨⟨a, mid⟩, -, hb⟩ := bind_eq_ok.1 hb
  exact hf a mid rest b hb

theorem throw (failure : Failure) : Yields (throw failure : Reader α) P := by
  intro cs rest a ha
  cases ha

theorem lift {e : Except Failure α} (h : ∀ a, e = .ok a → P a) : Yields (liftM e : Reader α) P := by
  intro cs rest a ha
  obtain ⟨b, hb, ha⟩ := bind_eq_ok.1 ha
  cases ha
  exact h a hb

end Yields

theorem yields_value (steps : Nat) :
    (∀ depth, Yields (value steps depth) Value.Distinct) ∧
      (∀ depth, Yields (items steps depth) (∀ v ∈ ·, v.Distinct)) ∧
      ∀ depth entries, Entries.Distinct entries →
        Yields (pairs steps depth entries) Entries.Distinct := by
  induction steps with
  | zero => exact ⟨fun _ ↦ .throw _, fun _ ↦ .throw _, fun _ _ _ ↦ .throw _⟩
  | succ steps ih =>
    obtain ⟨hvalue, hitems, hpairs⟩ := ih
    refine ⟨fun depth ↦ ?_, fun depth ↦ ?_, fun depth entries hentries ↦ ?_⟩
    · unfold value
      refine .andThen fun text ↦ ?_
      split
      · exact .pure (.string _)
      refine .andThen fun bracket ↦ ?_
      split
      · split
        · exact .throw _
        · exact (hitems _).bind fun items h ↦ .pure (.array h)
      refine .andThen fun brace ↦ ?_
      split
      · split
        · exact .throw _
        · exact (hpairs _ [] Entries.distinct_nil).bind fun entries h ↦ .pure h.toTable
      unfold bare
      refine .andThen fun cs ↦ ?_
      split
      · exact .andThen fun _ ↦ .pure (.scalar _)
      · exact .throw _
    · unfold items
      refine .andThen fun _ ↦ .andThen fun closed ↦ ?_
      split
      · exact .pure (by simp)
      refine (hvalue depth).bind fun item hitem ↦ .andThen fun _ ↦ .andThen fun comma ↦ ?_
      split
      · exact (hitems depth).bind fun items h ↦ .pure (List.forall_mem_cons.2 ⟨hitem, h⟩)
      · exact .andThen fun _ ↦ .pure (by simpa using hitem)
    · unfold pairs
      refine .andThen fun _ ↦ .andThen fun closed ↦ ?_
      split
      · exact .pure hentries
      refine .andThen fun (path, key) ↦ .andThen fun _ ↦ .andThen fun _ ↦ .andThen fun _ ↦ ?_
      refine (hvalue depth).bind fun v hv ↦ ?_
      have hassign : Yields (liftM (Entries.assign path key v .header entries) : Reader Entries)
          Entries.Distinct := .lift fun changed h ↦ Entries.keeps_assign path key hv h hentries
      refine hassign.bind fun changed hchanged ↦ .andThen fun _ ↦ .andThen fun comma ↦ ?_
      split
      · exact hpairs depth changed hchanged
      · exact .andThen fun _ ↦ .pure hchanged

/-- What a line assigns has no key twice. -/
def Line.Distinct : Line → Prop
  | .assign _ _ v => v.Distinct
  | _ => True

theorem yields_line (steps : Nat) : Yields (line steps) Line.Distinct := by
  unfold line
  refine .andThen fun _ ↦ .andThen fun element ↦ ?_
  split
  · exact .andThen fun _ ↦ .andThen fun _ ↦ .andThen fun _ ↦ .pure trivial
  refine .andThen fun table ↦ ?_
  split
  · exact .andThen fun _ ↦ .andThen fun _ ↦ .andThen fun _ ↦ .pure trivial
  refine .andThen fun cs ↦ ?_
  split
  · exact .andThen fun _ ↦ .pure trivial
  · exact .andThen fun _ ↦ .pure trivial
  · exact .andThen fun _ ↦ .pure trivial
  · exact .andThen fun _ ↦ .pure trivial
  · refine .andThen fun _ ↦ .andThen fun _ ↦ .andThen fun _ ↦ ?_
    exact ((yields_value steps).1 maxDepth).bind fun v hv ↦ .andThen fun _ ↦ .pure hv

theorem yields_lines (steps : Nat) {current : List String} {entries : Entries}
    (h : entries.Distinct) : Yields (lines steps current entries) Entries.Distinct := by
  induction steps generalizing current entries with
  | zero => exact .pure h
  | succ steps ih =>
    have hchange {change : Entries.Change} (hc : Entries.Keeps change) (path : List String) :
        Yields (liftM (Entries.changeAt false change path .header entries) : Reader Entries)
          Entries.Distinct :=
      .lift fun changed heq ↦ Entries.keeps_changeAt hc false path heq h
    unfold lines
    refine .andThen fun cs ↦ ?_
    split
    · exact .pure h
    refine (yields_line steps).bind fun l hl ↦ ?_
    split
    · exact ih h
    · exact (hchange (Entries.keeps_openTable _) _).bind fun changed hchanged ↦ ih hchanged
    · exact (hchange (Entries.keeps_openElement _) _).bind fun changed hchanged ↦ ih hchanged
    · exact (hchange (Entries.keeps_assign _ _ hl) _).bind fun changed hchanged ↦ ih hchanged

end Reader

theorem distinct_of_parse {text : String} {table : Table} (h : parse text = .ok table) :
    Value.Distinct (.table table) := by
  unfold parse at h
  obtain ⟨⟨entries, rest⟩, hlines, h⟩ := bind_eq_ok.1 h
  cases h
  exact (Reader.yields_lines _ Entries.distinct_nil _ _ _ hlines).toTable

end ReleaseTrain.Toml
