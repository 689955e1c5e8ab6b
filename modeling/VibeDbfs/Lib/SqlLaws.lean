import VibeDbfs.Lib.Sql

/-!
What the statements do where foreign keys are not enforced: each changes one table, or moves one.
A statement keeps the transaction that it runs in, so a failed transaction restores the file.
-/

set_option autoImplicit false
set_option relaxedAutoImplicit false

namespace VibeDbfs.Lib.Sql

open Prog

def Table.bare (t : Table) : Table := { t with foreignKeys := [] }

@[simp] theorem Table.bare_columns (t : Table) : t.bare.columns = t.columns := rfl

/-- The file has version `version` and the tables `tables`, its indexes are among `allowed`, foreign
keys are not enforced, and the engine works. -/
structure Conn.Holds (c : Conn) (allowed : List Index) (version : Int)
    (tables : String → Option Table) : Prop where
  version : c.file.userVersion = version
  data : ∀ name, (c.file.tables name).map Table.bare = tables name
  plain : ∀ name t, tables name = some t → t.Plain
  indexes : ∀ index ∈ c.file.indexes, index ∈ allowed
  unenforced : c.foreignKeys = false
  works : c.engine.Works

variable {allowed : List Index} {version : Int} {data : String → Option Table} {c : Conn}
  {name newName : String} {t : Table}

theorem Conn.Holds.table (h : c.Holds allowed version data) (ht : data name = some t) :
    ∃ t', c.file.tables name = some t' ∧ t'.bare = t :=
  Option.map_eq_some_iff.mp ((h.data name).trans ht)

theorem Conn.Holds.base (h : c.Holds allowed version data) (ht : data name = some t) :
    ∃ t', c.file.tables name = some t' ∧ t'.bare = t ∧ t'.view = false := by
  obtain ⟨t', hfind, rfl⟩ := h.table ht
  exact ⟨t', hfind, rfl, (h.plain name _ ht).view⟩

theorem Conn.Holds.none (h : c.Holds allowed version data) (ht : data name = none) :
    c.file.tables name = none :=
  Option.map_eq_none_iff.mp ((h.data name).trans ht)

theorem Conn.Holds.hasIndex (h : c.Holds allowed version data)
    (hname : ∀ index ∈ allowed, index.name ≠ name) : c.file.hasIndex name = false := by
  rw [File.hasIndex, List.any_eq_false]
  intro index hindex
  simpa using hname index (h.indexes index hindex)

theorem Conn.Holds.setTable (h : c.Holds allowed version data) (name : String) (t : Option Table)
    (ht : ∀ t' ∈ t, t'.Plain) : Conn.Holds { c with file := c.file.setTable name t } allowed version
      (Function.update data name (t.map Table.bare)) := by
  refine ⟨h.version, fun n => ?_, fun n t' ht' => ?_, h.indexes, h.unenforced, h.works⟩
  · change (Function.update c.file.tables name t n).map Table.bare = _
    by_cases hn : n = name
    · rw [hn, Function.update_self, Function.update_self]
    · rw [Function.update_of_ne hn, Function.update_of_ne hn, h.data]
  · by_cases hn : n = name
    · rw [hn, Function.update_self] at ht'
      obtain ⟨t₀, ht₀, rfl⟩ := Option.map_eq_some_iff.mp ht'
      exact ⟨(ht t₀ ht₀).view, (ht t₀ ht₀).capitals⟩
    · rw [Function.update_of_ne hn] at ht'
      exact h.plain n t' ht'

section Statements

theorem change_eq {g : File → File} (hfault : c.engine.fault c.file (g c.file) = none) :
    change g c = (.ok (), { c with file := g c.file }) := by
  unfold change
  rw [get_bind, hfault]
  rfl

theorem change_error {g : File → File} {e : Error}
    (hfault : c.engine.fault c.file (g c.file) = some e) : change g c = (.error e, c) := by
  unfold change
  rw [get_bind, hfault]
  rfl

theorem wp_change_cases {g : File → File} {Q : Except Error Unit → Conn → Prop}
    (herror : ∀ e, c.engine.fault c.file (g c.file) = some e → Q (.error e) c)
    (hok : c.engine.fault c.file (g c.file) = none → Q (.ok ()) { c with file := g c.file }) :
    wp (change g) Q c := by
  unfold wp
  rcases hfault : c.engine.fault c.file (g c.file) with _ | e
  · rw [change_eq hfault]
    exact hok hfault
  · rw [change_error hfault]
    exact herror e hfault

theorem wp_change {g : File → File} {Q : Except Error Unit → Conn → Prop}
    (hfault : c.engine.fault c.file (g c.file) = none) :
    wp (change g) Q c ↔ Q (.ok ()) { c with file := g c.file } := by
  unfold wp
  rw [change_eq hfault]

theorem createTable_gives (h : c.Holds allowed version data) (hnone : data name = none)
    (ht : t.Plain) (hname : ∀ index ∈ allowed, index.name ≠ name) (ifNotExists : Bool) :
    Gives (createTable name t ifNotExists) ()
      (Conn.Holds · allowed version
        (Function.update data name (some { t.bare with rows := [] }))) c := by
  have hset := h.setTable name (some { t with rows := [] }) <| by
    rintro _ ⟨⟩
    exact ⟨ht.view, ht.capitals⟩
  unfold Gives createTable
  rw [wp_get_bind, h.none hnone, if_neg (by simp), h.hasIndex hname, if_neg (by simp),
    wp_change (h.works _ _)]
  exact ⟨rfl, hset⟩

theorem createTable_same (hsome : (c.file.tables name).isSome) :
    createTable name t true c = (.ok (), c) := by
  change (if (c.file.tables name).isSome then _ else _ : Statement Unit) c = _
  rw [if_pos hsome]
  rfl

theorem findTable_eq {t' : Table} (ht : c.file.tables name = some t') :
    findTable name c = (.ok t', c) := by
  unfold findTable
  rw [bind_ok (show Prog.get c = (.ok c, c) from rfl)]
  simp only [ht]
  exact rfl

theorem findTable_bind {α : Type} {t' : Table} (ht : c.file.tables name = some t')
    (f : Table → Statement α) (Q : Except Error α → Conn → Prop) :
    wp (findTable name >>= f) Q c ↔ wp (f t') Q c := by
  rw [wp_bind_iff, wp, findTable_eq ht]

theorem findBase_bind {α : Type} {t' : Table} (ht : c.file.tables name = some t')
    (hview : t'.view = false) (problem : String) (f : Table → Statement α)
    (Q : Except Error α → Conn → Prop) : wp (findBase name problem >>= f) Q c ↔ wp (f t') Q c := by
  have hfind : findBase name problem c = (.ok t', c) := by
    unfold findBase
    rw [bind_ok (findTable_eq ht), hview]
    rfl
  rw [wp_bind_iff, wp, hfind]

theorem select_gives (h : c.Holds allowed version data) (ht : data name = some t)
    {columns : List String} (hcolumns : ∀ column ∈ columns, column ∈ t.columns) :
    Gives (select name columns) t.rows (Conn.Holds · allowed version data) c := by
  obtain ⟨t', hfind, rfl⟩ := h.table ht
  unfold Gives select
  rw [findTable_bind hfind, if_pos (by simpa using hcolumns), wp_bind_iff, wp_change (h.works _ _)]
  exact ⟨rfl, h⟩

theorem dropTable_gives (h : c.Holds allowed version data) (ht : data name = some t) :
    Gives (dropTable name) ()
      (Conn.Holds · allowed version (Function.update data name none)) c := by
  obtain ⟨t', hfind, -, hview⟩ := h.base ht
  have hset := h.setTable name none nofun
  unfold Gives dropTable
  rw [findBase_bind hfind hview, wp_get_bind, h.unenforced, wp_change (h.works _ _)]
  refine ⟨rfl, hset.version, hset.data, hset.plain, ?_, h.unenforced, h.works⟩
  intro index hindex
  exact h.indexes index (List.mem_of_mem_filter hindex)

theorem renameTable_gives (h : c.Holds allowed version data) (ht : data name = some t)
    (hnone : data newName = none)
    (hallowed : ∀ index ∈ allowed, index.table ≠ name ∧ index.name ≠ newName) :
    Gives (renameTable name newName) () (Conn.Holds · allowed version
      (Function.update (Function.update data name none) newName (some t))) c := by
  obtain ⟨t', hfind, rfl, hview⟩ := h.base ht
  have hset := (h.setTable name none nofun).setTable newName (some t') <| by
    rintro _ ⟨⟩
    exact ⟨hview, (h.plain name _ ht).capitals⟩
  unfold Gives renameTable
  rw [findBase_bind hfind hview, wp_get_bind, h.none hnone,
    h.hasIndex fun index hindex => (hallowed index hindex).2, if_neg (by simp),
    wp_change (h.works _ _)]
  refine ⟨rfl, hset.version, fun n => ?_, hset.plain, fun index hindex => ?_, h.unenforced, h.works⟩
  · refine Eq.trans ?_ (hset.data n)
    exact (Option.map_map ..).trans rfl
  · obtain ⟨old, hold, rfl⟩ := List.mem_map.mp hindex
    have hin := h.indexes old hold
    rwa [if_neg (hallowed old hin).1]

theorem addColumn_gives (h : c.Holds allowed version data) (ht : data name = some t)
    {column : String} (hcolumn : column ∉ t.columns) (value : Value) :
    Gives (addColumn name column value) () (Conn.Holds · allowed version
      (Function.update data name (some { t with
        columns := t.columns ++ [column]
        rows := t.rows.map fun r => Function.update r column value }))) c := by
  obtain ⟨t', hfind, rfl, hview⟩ := h.base ht
  unfold Gives addColumn
  rw [Table.bare_columns] at hcolumn
  rw [findBase_bind hfind hview, if_neg hcolumn, wp_change (h.works _ _)]
  refine ⟨rfl, h.setTable name (some { t' with
    columns := t'.columns ++ [column]
    rows := t'.rows.map fun r => Function.update r column value }) ?_⟩
  rintro _ ⟨⟩
  exact ⟨hview, (h.plain name _ ht).capitals⟩

theorem createIndex_gives {index : Index} (h : c.Holds allowed version data)
    (ht : data index.table = some t) (hnone : data index.name = none) (hallowed : index ∈ allowed)
    (hcolumns : ∀ column ∈ index.columns, column ∈ t.columns)
    (hunique : index.unique = true → (t.rows.filterMap (keyOf index.columns)).Nodup) :
    Gives (createIndex index) () (Conn.Holds · allowed version data) c := by
  obtain ⟨t', hfind, rfl, hview⟩ := h.base ht
  unfold Gives createIndex
  rw [findBase_bind hfind hview, wp_get_bind, h.none hnone, if_neg (by simp)]
  split
  · exact ⟨rfl, h⟩
  · rw [if_neg (by simpa using hcolumns), if_neg fun hbad => hbad.2 (hunique hbad.1),
      wp_change (h.works _ _)]
    refine ⟨rfl, h.version, h.data, h.plain, fun other hother => ?_, h.unenforced, h.works⟩
    rcases List.mem_append.mp hother with hother | hother
    · exact h.indexes other hother
    · exact List.mem_singleton.mp hother ▸ hallowed

theorem setUserVersion_gives (h : c.Holds allowed version data) (newVersion : Int) :
    Gives (setUserVersion newVersion) () (Conn.Holds · allowed newVersion data) c :=
  (wp_change (h.works _ _)).mpr
    ⟨rfl, rfl, h.data, h.plain, h.indexes, h.unenforced, h.works⟩

theorem commit_gives (h : c.Holds allowed version data) :
    Gives commit () (Conn.Holds · allowed version data) c :=
  (wp_change (h.works _ _)).mpr ⟨rfl, h⟩

end Statements

theorem rebuilt_data {other : String} (blank : Table) {filled : Table}
    (hother : data other = none) :
    Function.update (Function.update (Function.update (Function.update (Function.update data other
      (some blank)) other (some filled)) name none) other none) name (some filled) =
    Function.update data name (some filled) := by
  funext n
  by_cases hname : n = name
  · rw [hname, Function.update_self, Function.update_self]
  · rw [Function.update_of_ne hname, Function.update_of_ne hname]
    by_cases hn : n = other
    · rw [hn, Function.update_self, hother]
    · rw [Function.update_of_ne hn, Function.update_of_ne hname, Function.update_of_ne hn,
        Function.update_of_ne hn]

section Insert

variable {f : File} {engine : Engine} {k : String} {r : Row} {rows : List Row}

def Exact (r : Row) : Prop := ∀ engine : Engine, ∀ column, engine.keep column (r column) = r column

theorem exact_row {values : List (String × Value)}
    (h : ∀ p ∈ values, ∀ engine : Engine, ∀ column, engine.keep column p.2 = p.2) :
    Exact (row values) := by
  intro engine column
  induction values with
  | nil => rfl
  | cons p values ih =>
    rw [row_cons]
    split
    · exact h p List.mem_cons_self engine column
    · exact ih fun q hq => h q (List.mem_cons_of_mem _ hq)

theorem row_ne_null {values : List (String × Int)} {column : String}
    (h : column ∈ values.map Prod.fst) :
    row (values.map fun p => (p.1, .integer p.2)) column ≠ .null := by
  induction values with
  | nil => cases h
  | cons p values ih =>
    rw [List.map_cons, row_cons]
    split
    · nofun
    · next hne => exact ih ((List.mem_cons.mp h).resolve_left hne)

theorem lt_nextRowid {ids : List Value} {i : Int} (h : .integer i ∈ ids) : i < nextRowid ids := by
  have hmem : i ∈ ids.filterMap Value.int? := List.mem_filterMap.mpr ⟨_, h, rfl⟩
  unfold nextRowid
  rcases hmax : (ids.filterMap Value.int?).max? with _ | last
  · rw [List.max?_eq_none_iff.mp hmax] at hmem
    cases hmem
  · exact Int.lt_add_one_of_le ((List.max?_eq_some_iff.mp hmax).2 i hmem)

theorem nextRowid_pos {ids : List Value} (h : ∀ i, .integer i ∈ ids → 0 < i) :
    0 < nextRowid ids := by
  unfold nextRowid
  rcases hmax : (ids.filterMap Value.int?).max? with _ | last
  · exact Int.one_pos
  · obtain ⟨v, hv, hlast⟩ := List.mem_filterMap.mp (List.max?_eq_some_iff.mp hmax).1
    cases v <;> simp only [Value.int?, reduceCtorEq, Option.some.injEq] at hlast
    have hpos := h last (hlast ▸ hv)
    change 0 < last + 1
    omega

theorem keyOf_single {i : Int} (h : r k = .integer i) : keyOf [k] r = some [.integer i] := by
  simp [keyOf, h]

theorem insertRow_ok (hindex : ∀ index ∈ f.indexes, index.table ≠ name) (hexact : Exact r)
    (hrowid : t.rowid = some k)
    (hkey : t.primaryKey = [k]) {i : Int} (hid : t.numbered r k = .integer i)
    (hnull : ∀ column ∈ t.columns, t.numbered r column ≠ .null)
    (hfresh : ∀ other ∈ t.rows, ∃ j, other k = .integer j ∧ j ≠ i) :
    f.insertRow engine false name t r = .ok { t with rows := t.rows ++ [t.numbered r] } := by
  have hkeep : (fun column => engine.keep column (r column)) = r := funext (hexact engine)
  have htaken : taken t.primaryKey t.rows (t.numbered r) = false := by
    rw [hkey, taken, keyOf_single hid, Option.isSome_some, Bool.true_and, List.any_eq_false]
    intro other hother
    obtain ⟨j, hj, hne⟩ := hfresh other hother
    simpa [keyOf_single hj] using hne
  have hunique : (f.indexes.any fun index => index.table = name && index.unique &&
      taken index.columns t.rows (t.numbered r)) = false := by
    rw [List.any_eq_false]
    intro index hin
    simp [hindex index hin]
  unfold File.insertRow
  rw [hkeep]
  dsimp only
  rw [if_neg (by simp [hrowid, hid, Value.int?]), if_neg (by simpa using hnull), htaken, hunique]
  rfl

theorem numbered_of_ne_null (hrowid : t.rowid = some k) (h : r k ≠ .null) : t.numbered r = r := by
  unfold Table.numbered
  rw [hrowid]
  exact if_neg h

theorem insertRows_keyed (engine : Engine) (rows : List Row)
    (hindex : ∀ index ∈ f.indexes, index.table ≠ name)
    (hexact : ∀ r ∈ rows, Exact r) (hrowid : t.rowid = some k) (hkey : t.primaryKey = [k])
    (hids : ∀ r ∈ t.rows ++ rows, ∃ i, r k = .integer i)
    (hnodup : ((t.rows ++ rows).map fun r => r k).Nodup)
    (hnull : ∀ r ∈ rows, ∀ column ∈ t.columns, r column ≠ .null) :
    f.insertRows engine false name t rows = .ok { t with rows := t.rows ++ rows } := by
  induction rows generalizing t with
  | nil =>
    rw [List.append_nil]
    rfl
  | cons r rows ih =>
    obtain ⟨i, hi⟩ := hids r (by simp)
    have hnumbered : t.numbered r = r := numbered_of_ne_null hrowid (by simp [hi])
    have hfresh : ∀ other ∈ t.rows, ∃ j, other k = .integer j ∧ j ≠ i := by
      intro other hother
      obtain ⟨j, hj⟩ := hids other (List.mem_append_left _ hother)
      refine ⟨j, hj, ?_⟩
      rintro rfl
      rw [List.map_append, List.nodup_append] at hnodup
      exact hnodup.2.2 _ (List.mem_map_of_mem hother) _ (List.mem_map_of_mem List.mem_cons_self)
        (hj.trans hi.symm)
    have hrow : f.insertRow engine false name t r = .ok { t with rows := t.rows ++ [r] } := by
      rw [insertRow_ok hindex (hexact r List.mem_cons_self) hrowid hkey (i := i)
        (by rwa [hnumbered])
        (by rw [hnumbered]; exact hnull r List.mem_cons_self) hfresh, hnumbered]
    unfold File.insertRows
    rw [List.foldlM_cons, hrow]
    refine (ih (t := { t with rows := t.rows ++ [r] })
      (fun q hq => hexact q (List.mem_cons_of_mem _ hq)) hrowid hkey ?_ ?_ ?_).trans ?_
    · simpa using hids
    · simpa using hnodup
    · exact fun q hq => hnull q (List.mem_cons_of_mem _ hq)
    · simp

theorem insertRows_numbered (engine : Engine) (hindex : ∀ index ∈ f.indexes, index.table ≠ name)
    (hexact : ∀ r ∈ rows, Exact r) (hrowid : t.rowid = some k) (hkey : t.primaryKey = [k])
    (hids : ∀ r ∈ t.rows, ∃ i, 0 < i ∧ r k = .integer i) (hnodup : (t.rows.map fun r => r k).Nodup)
    (hnull : ∀ r ∈ rows, r k = .null ∧ ∀ column ∈ t.columns, column ≠ k → r column ≠ .null) :
    ∃ new, f.insertRows engine false name t rows = .ok { t with rows := t.rows ++ new } ∧
      List.Forall₂ (fun r r' => ∃ i, 0 < i ∧ r' = Function.update r k (.integer i)) rows new ∧
      ((t.rows ++ new).map fun r => r k).Nodup := by
  induction rows generalizing t with
  | nil =>
    refine ⟨[], ?_, .nil, by simpa using hnodup⟩
    rw [List.append_nil]
    rfl
  | cons r rows ih =>
    obtain ⟨hr, hcolumns⟩ := hnull r List.mem_cons_self
    have hnumbered : t.numbered r =
        Function.update r k (.integer (nextRowid (t.rows.map fun other => other k))) := by
      unfold Table.numbered
      rw [hrowid]
      exact if_pos hr
    have hfresh : ∀ other ∈ t.rows, ∃ j, other k = .integer j ∧
        j ≠ nextRowid (t.rows.map fun other => other k) := by
      intro other hother
      obtain ⟨j, -, hj⟩ := hids other hother
      exact ⟨j, hj, Int.ne_of_lt (lt_nextRowid (hj ▸ List.mem_map_of_mem hother))⟩
    have hpos : 0 < nextRowid (t.rows.map fun other => other k) := by
      refine nextRowid_pos fun i hi => ?_
      obtain ⟨other, hother, heq⟩ := List.mem_map.mp hi
      obtain ⟨j, hj, hjk⟩ := hids other hother
      rw [hjk, Value.integer.injEq] at heq
      exact heq ▸ hj
    have hrow : f.insertRow engine false name t r =
        .ok { t with rows := t.rows ++ [t.numbered r] } := by
      refine insertRow_ok hindex (hexact r List.mem_cons_self) hrowid hkey
        (i := nextRowid (t.rows.map fun other => other k))
        (by rw [hnumbered, Function.update_self]) (fun column hcolumn => ?_) hfresh
      rw [hnumbered]
      by_cases hck : column = k
      · rw [hck, Function.update_self]
        nofun
      · rw [Function.update_of_ne hck]
        exact hcolumns column hcolumn hck
    obtain ⟨new, hnew, hforall, hdistinct⟩ := ih (t := { t with rows := t.rows ++ [t.numbered r] })
      (fun q hq => hexact q (List.mem_cons_of_mem _ hq)) hrowid hkey
      (fun q hq => by
        rcases List.mem_append.mp hq with hq | hq
        · exact hids q hq
        · refine ⟨_, hpos, ?_⟩
          rw [List.mem_singleton.mp hq, hnumbered, Function.update_self])
      (by
        rw [List.map_append, List.nodup_append]
        refine ⟨hnodup, List.nodup_singleton _, ?_⟩
        rintro a ha b hb rfl
        obtain ⟨other, hother, rfl⟩ := List.mem_map.mp ha
        obtain ⟨j, hj, hne⟩ := hfresh other hother
        rw [List.map_singleton, List.mem_singleton, hnumbered, Function.update_self, hj,
          Value.integer.injEq] at hb
        exact hne hb)
      (fun q hq => hnull q (List.mem_cons_of_mem _ hq))
    refine ⟨t.numbered r :: new, ?_, .cons ⟨_, hpos, hnumbered⟩ hforall, ?_⟩
    · unfold File.insertRows at hnew ⊢
      rw [List.foldlM_cons, hrow]
      exact hnew.trans (by simp)
    · simpa using hdistinct

end Insert

section InsertInto

variable {k : String} {rows : List Row}

theorem insertKeyed_gives (rows : List Row) (h : c.Holds allowed version data)
    (ht : data name = some t)
    (hindex : ∀ index ∈ allowed, index.table ≠ name) (hexact : ∀ r ∈ rows, Exact r)
    (hrowid : t.rowid = some k)
    (hkey : t.primaryKey = [k]) (hids : ∀ r ∈ t.rows ++ rows, ∃ i, r k = .integer i)
    (hnodup : ((t.rows ++ rows).map fun r => r k).Nodup)
    (hnull : ∀ r ∈ rows, ∀ column ∈ t.columns, r column ≠ .null) :
    Gives (insertInto name rows) () (Conn.Holds · allowed version
      (Function.update data name (some { t with rows := t.rows ++ rows }))) c := by
  obtain ⟨t', hfind, rfl, hview⟩ := h.base ht
  have hfree : ∀ index ∈ c.file.indexes, index.table ≠ name := fun index hin =>
    hindex index (h.indexes index hin)
  have hinsert := insertRows_keyed (t := t') c.engine rows hfree hexact hrowid hkey
      hids hnodup hnull
  unfold Gives insertInto
  rw [findBase_bind hfind hview, wp_get_bind, h.unenforced, hinsert, wp_change (h.works _ _)]
  refine ⟨rfl, h.setTable name _ ?_⟩
  rintro _ ⟨⟩
  exact ⟨hview, (h.plain name _ ht).capitals⟩

theorem insertNumbered_gives (h : c.Holds allowed version data) (ht : data name = some t)
    (hindex : ∀ index ∈ allowed, index.table ≠ name) (hexact : ∀ r ∈ rows, Exact r)
    (hrowid : t.rowid = some k) (hkey : t.primaryKey = [k]) (hempty : t.rows = [])
    (hnull : ∀ r ∈ rows, r k = .null ∧ ∀ column ∈ t.columns, column ≠ k → r column ≠ .null) :
    ∃ new, Gives (insertInto name rows) () (Conn.Holds · allowed version
        (Function.update data name (some { t with rows := new }))) c ∧
      List.Forall₂ (fun r r' => ∃ i, 0 < i ∧ r' = Function.update r k (.integer i)) rows new ∧
      (new.map fun r => r k).Nodup := by
  obtain ⟨t', hfind, rfl, hview⟩ := h.base ht
  replace hempty : t'.rows = [] := hempty
  have hfree : ∀ index ∈ c.file.indexes, index.table ≠ name := fun index hin =>
    hindex index (h.indexes index hin)
  obtain ⟨new, hinsert, hforall, hnodup⟩ := insertRows_numbered (t := t') c.engine hfree
    hexact hrowid hkey (by simp [hempty]) (by simp [hempty]) hnull
  rw [hempty, List.nil_append] at hinsert hnodup
  refine ⟨new, ?_, hforall, hnodup⟩
  unfold Gives insertInto
  rw [findBase_bind hfind hview, wp_get_bind, h.unenforced, hinsert, wp_change (h.works _ _)]
  refine ⟨rfl, h.setTable name _ ?_⟩
  rintro _ ⟨⟩
  exact ⟨hview, (h.plain name _ ht).capitals⟩

end InsertInto

section Transactions

variable {ε ε' α β : Type}

/-- Whatever `x` does, it stays in the transaction that it runs in. -/
structure Stays (x : Prog Conn ε α) : Prop where
  saved : ∀ c, (x c).2.saved = c.saved

theorem Stays.pure (a : α) : Stays (Pure.pure a : Prog Conn ε α) := ⟨fun _ => rfl⟩

theorem Stays.throw (e : ε) : Stays (Prog.throw e : Prog Conn ε α) := ⟨fun _ => rfl⟩

theorem Stays.get : Stays (Prog.get : Prog Conn ε Conn) := ⟨fun _ => rfl⟩


theorem Stays.mapError {f : ε → ε'} {x : Prog Conn ε α} (h : Stays x) : Stays (mapError f x) :=
  ⟨h.saved⟩

theorem Stays.bind {x : Prog Conn ε α} {f : α → Prog Conn ε β} (hx : Stays x)
    (hf : ∀ a, Stays (f a)) : Stays (x >>= f) := by
  refine ⟨fun c => ?_⟩
  have hfirst : wp x (fun _ c' => c'.saved = c.saved) c := hx.saved c
  have hboth : wp (x >>= f) (fun _ c' => c'.saved = c.saved) c := by
    refine wp_bind hfirst ?_ ?_
    · intro a c' hc'
      exact ((hf a).saved c').trans hc'
    · intro _ _ hc'
      exact hc'
  exact hboth

theorem Stays.change (f : File → File) : Stays (change f) := by
  refine Stays.get.bind fun c => ?_
  split
  · exact .throw _
  · exact ⟨fun _ => rfl⟩

theorem Stays.each {f : α → Prog Conn ε Unit} (hf : ∀ a, Stays (f a)) :
    ∀ xs, Stays (each f xs)
  | [] => .pure ()
  | x :: xs => (hf x).bind fun _ => Stays.each hf xs

theorem Stays.ite {p : Prop} [Decidable p] {x y : Prog Conn ε α} (hx : Stays x) (hy : Stays y) :
    Stays (if p then x else y) := by
  split
  · exact hx
  · exact hy

theorem Stays.findTable (name : String) : Stays (findTable name) := by
  refine Stays.get.bind fun c => ?_
  split
  · exact .pure _
  · exact .throw _

theorem Stays.findBase (name problem : String) : Stays (findBase name problem) :=
  (Stays.findTable name).bind fun _ => .ite (.throw _) (.pure _)

theorem Stays.createTable (name : String) (t : Table) (ifNotExists : Bool) :
    Stays (createTable name t ifNotExists) :=
  Stays.get.bind fun _ => .ite (.ite (.pure _) (.throw _)) (.ite (.throw _) (.change _))

theorem Stays.select (name : String) (columns : List String) : Stays (select name columns) :=
  (Stays.findTable name).bind fun _ => .ite ((Stays.change id).bind fun _ => .pure _) (.throw _)

theorem Stays.insertInto (name : String) (rows : List Row) : Stays (insertInto name rows) := by
  refine (Stays.findBase name _).bind fun t => Stays.get.bind fun c => ?_
  split
  · exact .change _
  · exact .throw _

theorem Stays.dropTable (name : String) : Stays (dropTable name) :=
  (Stays.findBase name _).bind fun _ => Stays.get.bind fun _ => .change _

theorem Stays.renameTable (name newName : String) : Stays (renameTable name newName) :=
  (Stays.findBase name _).bind fun _ => Stays.get.bind fun _ => .ite (.throw _) (.change _)

theorem Stays.addColumn (name column : String) (value : Value) :
    Stays (addColumn name column value) :=
  (Stays.findBase name _).bind fun _ => .ite (.throw _) (.change _)

theorem Stays.createIndex (index : Index) : Stays (createIndex index) :=
  (Stays.findBase index.table _).bind fun _ => Stays.get.bind fun _ =>
    .ite (.throw _) (.ite (.pure _) (.ite (.throw _) (.ite (.throw _) (.change _))))

theorem Stays.setUserVersion (version : Int) : Stays (setUserVersion version) := .change _

theorem Stays.commit : Stays commit := .change _

@[simp] theorem Conn.enforce_file (c : Conn) (foreignKeys : Bool) :
    (c.enforce foreignKeys).file = c.file := by
  unfold Conn.enforce
  split <;> rfl

@[simp] theorem Conn.enforce_engine (c : Conn) (foreignKeys : Bool) :
    (c.enforce foreignKeys).engine = c.engine := by
  unfold Conn.enforce
  split <;> rfl

theorem setForeignKeys_bind (foreignKeys : Bool) (f : Unit → Prog Conn ε α)
    (Q : Except ε α → Conn → Prop) (c : Conn) :
    wp (setForeignKeys foreignKeys >>= f) Q c ↔ wp (f ()) Q (c.enforce foreignKeys) := Iff.rfl

variable {body : Prog Conn ε Unit}

theorem transaction_spec (hbody : Stays body) (c : Conn) :
    wp (transaction body) (fun r c' => c'.saved = none ∧
      ∀ e, r = .error e → c'.file = c.file) c := by
  unfold transaction
  rw [wp_modify_bind]
  refine wp_bind (R := fun r c' => c'.saved = some c.file ∧ ∃ r', r = .ok r')
    ((wp_attempt ..).mpr ⟨hbody.saved _, _, rfl⟩) ?_ ?_
  · rintro r c' ⟨hsaved, -⟩
    rcases r with e | -
    · exact ⟨rfl, fun _ _ => congrArg (Option.getD · c'.file) hsaved⟩
    · exact ⟨rfl, nofun⟩
  · rintro e c' ⟨-, r', hr⟩
    cases hr

theorem transaction_gives {P : Conn → Prop} (h : Gives body () P { c with saved := some c.file }) :
    Gives (transaction body) () (fun c' => ∃ c₁, P c₁ ∧ c' = { c₁ with saved := none }) c := by
  unfold Gives transaction
  rw [wp_modify_bind]
  refine wp_bind (R := fun r c' => r = .ok (.ok ()) ∧ P c')
    ((wp_attempt ..).mpr ⟨congrArg Except.ok h.1, h.2⟩) ?_ ?_
  · rintro _ c' ⟨⟨⟩, hc'⟩
    exact ⟨rfl, c', hc', rfl⟩
  · rintro _ _ ⟨⟨⟩, -⟩

end Transactions

end VibeDbfs.Lib.Sql
