import VibeDbfs.Lib.SqlLaws
import VibeDbfs.Storage.Migration

/-!
Opening a file that is refused, or whose migration fails. The migration rolls back; the batch that
creates missing tables does not, and it runs before the version is looked at.
-/

set_option autoImplicit false
set_option relaxedAutoImplicit false

namespace VibeDbfs

open Lib Lib.Sql Lib.Prog

namespace Migration

variable {c : Conn} {name : String}

section Stays

variable {α : Type}

private theorem stays_sql {x : Statement α} (h : Stays x) : Stays (sql x) := h.mapError

private theorem stays_hasColumn (table column : String) : Stays (tableHasColumn table column) :=
  Stays.get.bind fun _ => .pure _

private theorem stays_ensureNsecColumns : Stays ensureNsecColumns :=
  .each (fun _ => (stays_hasColumn _ _).bind fun _ =>
    .ite (.pure _) (stays_sql (.addColumn _ _ _))) _

private theorem stays_mergeTimestampColumns : Stays mergeTimestampColumns :=
  Stays.get.bind fun _ => (stays_sql (.createTable _ _ _)).bind fun _ =>
    (stays_sql (.select _ _)).bind fun _ => (stays_sql (.insertInto _ _)).bind fun _ =>
      (stays_sql (.dropTable _)).bind fun _ => stays_sql (.renameTable _ _)

private theorem stays_rekeyFileChunks : Stays rekeyFileChunks :=
  Stays.get.bind fun _ => (stays_sql (.select _ _)).bind fun _ => .ite (.throw _) <|
    (stays_sql (.createTable _ _ _)).bind fun _ => (stays_sql (.select _ _)).bind fun _ =>
      (stays_sql (.select _ _)).bind fun _ => (stays_sql (.insertInto _ _)).bind fun _ =>
        (stays_sql (.dropTable _)).bind fun _ => stays_sql (.renameTable _ _)

private theorem stays_rebuildDirents : Stays rebuildDirents :=
  (stays_sql (.createTable _ _ _)).bind fun _ => (stays_sql (.select _ _)).bind fun _ =>
    (stays_sql (.insertInto _ _)).bind fun _ => (stays_sql (.dropTable _)).bind fun _ =>
      stays_sql (.renameTable _ _)

private theorem stays_toVersion3 (version : Int) : Stays (toVersion3 version) := by
  refine .ite ?_ (.pure _)
  refine Stays.bind ((stays_hasColumn _ _).bind fun _ => .ite (.pure _) stays_rebuildDirents) ?_
  exact fun _ => (stays_sql (.createIndex _)).bind fun _ =>
    (stays_sql (.createIndex _)).bind fun _ => stays_sql (.createIndex _)

private theorem stays_toVersion4 (version : Int) (splitTimestamps : Bool) :
    Stays (toVersion4 version splitTimestamps) := by
  refine .ite ?_ (.pure _)
  refine Stays.bind (.ite stays_mergeTimestampColumns (.pure _)) ?_
  exact fun _ => (stays_hasColumn _ _).bind fun _ => .ite stays_rekeyFileChunks (.pure _)

private theorem migrateSteps_spec (version : Int) (c : Conn) :
    wp (migrateSteps version) (fun r c' => c'.saved = none ∧
      ∀ e, r = .error e → c'.file = c.file) c := by
  apply transaction_spec
  refine (stays_hasColumn _ _).bind fun hasNs => ?_
  refine Stays.bind (.ite stays_ensureNsecColumns (.pure _)) fun _ => ?_
  refine Stays.bind (.ite (stays_sql (.createIndex _)) (.pure _)) fun _ => ?_
  refine (stays_toVersion3 _).bind fun _ => (stays_toVersion4 _ _).bind fun _ => ?_
  exact (stays_sql (.setUserVersion _)).bind fun _ => stays_sql .commit

end Stays

private theorem migrate_spec (c : Conn) :
    wp migrate (fun r c' => (∀ e, r = .error e → c'.file = c.file) ∧
    (schemaVersion < c.file.userVersion → r = .error (.unsupportedSchema c.file.userVersion)))
      c := by
  unfold migrate
  rw [wp_get_bind]
  dsimp only
  split
  · exact ⟨fun _ _ => rfl, fun _ => rfl⟩
  · next hnew =>
    have hold : ¬schemaVersion < c.file.userVersion := hnew
    split
    · exact ⟨nofun, fun h => (hold h).elim⟩
    · rw [setForeignKeys_bind]
      refine wp_bind (R := fun r c' => ∃ r', r = .ok r' ∧ ∀ e, r' = .error e → c'.file = c.file)
        ((wp_attempt ..).mpr (wp_mono (migrateSteps_spec _ _) fun r c2 h =>
          ⟨r, rfl, fun e he => (h.2 e he).trans (c.enforce_file false)⟩)) ?_ ?_
      · rintro r' c2 ⟨_, ⟨⟩, hc2⟩
        rw [setForeignKeys_bind]
        cases r' with
        | ok _ => exact ⟨nofun, fun h => (hold h).elim⟩
        | error e =>
          exact ⟨fun _ _ => (c2.enforce_file _).trans (hc2 e rfl), fun h => (hold h).elim⟩
      · rintro _ _ ⟨_, ⟨⟩, -⟩

section Create

/-- What creating tables keeps: the version, the transaction, and the tables that are there. -/
structure Grown (c c' : Conn) : Prop where
  version : c'.file.userVersion = c.file.userVersion
  saved : c'.saved = c.saved
  tables : ∀ name, (c.file.tables name).isSome → (c'.file.tables name).isSome

private theorem Grown.refl (c : Conn) : Grown c c := ⟨rfl, rfl, fun _ h => h⟩

private theorem Grown.trans {c c' c'' : Conn} (h : Grown c c') (h' : Grown c' c'') : Grown c c'' :=
  ⟨h'.version.trans h.version, h'.saved.trans h.saved, fun name hn => h'.tables name
    (h.tables name hn)⟩

private theorem createTable_grown (name : String) (t : Table) (c : Conn) :
    wp (createTable name t true) (fun r c' => Grown c c' ∧
      (r = .ok () → (c'.file.tables name).isSome)) c := by
  unfold createTable
  rw [wp_get_bind]
  split
  · next hsome => exact ⟨.refl c, fun _ => hsome⟩
  · split
    · exact ⟨.refl c, nofun⟩
    · refine wp_change_cases (fun _ _ => ⟨.refl c, nofun⟩) fun _ => ?_
      refine ⟨⟨rfl, rfl, fun other hother => ?_⟩, fun _ => ?_⟩
      · change (Function.update c.file.tables name _ other).isSome
        by_cases hn : other = name
        · rw [hn, Function.update_self]
          rfl
        · rwa [Function.update_of_ne hn]
      · change (Function.update c.file.tables name _ name).isSome
        rw [Function.update_self]
        rfl

def createAll (tables : List (String × Table)) : Opening Unit :=
  each (fun table => sql (createTable table.1 table.2 true)) tables

theorem createAll_grown (tables : List (String × Table)) (c : Conn) :
    wp (createAll tables) (fun _ c' => Grown c c') c := by
  refine wp_each (I := fun _ s => Grown c s) (fun table rest s hs => ?_) (fun s hs => hs) tables c
    (.refl c)
  refine (wp_mapError ..).mpr (wp_mono (createTable_grown table.1 table.2 s) fun r s' h => ?_)
  cases r <;> exact hs.trans h.1

/-- The first of `tables` that `f` lacks. -/
def firstMissing (f : File) (tables : List (String × Table)) : Option (String × Table) :=
  tables.find? fun table => (f.tables table.1).isNone

/-- `f` with the new table. -/
def withTable (f : File) (table : String × Table) : File :=
  f.setTable table.1 (some { table.2 with rows := [] })

/-- Creating the missing table fails: an index has its name, or the engine cannot write it. -/
def CannotCreate (engine : Engine) (f : File) (table : String × Table) : Prop :=
  f.hasIndex table.1 = true ∨ (engine.fault f (withTable f table)).isSome

instance (engine : Engine) (f : File) (table : String × Table) :
    Decidable (CannotCreate engine f table) := inferInstanceAs (Decidable (_ ∨ _))

theorem sql_eq {α : Type} {x : Statement α} {c c' : Conn} {r : Except Error α}
    (h : x c = (r, c')) : sql x c = (r.mapError dbError, c') := by
  change ((x c).1.mapError dbError, (x c).2) = _
  rw [h]

private theorem createTable_cannot {table : String × Table} {c : Conn}
    (hnone : c.file.tables table.1 = none) (h : CannotCreate c.engine c.file table) :
    ∃ e, createTable table.1 table.2 true c = (.error e, c) := by
  change ∃ e, (if (c.file.tables table.1).isSome then _ else _ : Statement Unit) c = (.error e, c)
  rw [hnone, if_neg (by simp)]
  split
  · exact ⟨_, rfl⟩
  · next hindex =>
    obtain ⟨e, he⟩ := Option.isSome_iff_exists.mp (h.resolve_left hindex)
    exact ⟨e, change_error he⟩

theorem createTable_can {table : String × Table} {c : Conn} (hnone : c.file.tables table.1 = none)
    (h : ¬CannotCreate c.engine c.file table) :
    createTable table.1 table.2 true c = (.ok (), { c with file := withTable c.file table }) := by
  obtain ⟨hindex, hfault⟩ := not_or.mp h
  rw [Option.not_isSome_iff_eq_none] at hfault
  change (if (c.file.tables table.1).isSome then _ else _ : Statement Unit) c = _
  rw [hnone, if_neg (by simp), if_neg hindex]
  exact change_eq hfault

private theorem createAll_cases (tables : List (String × Table)) (c : Conn) :
    match firstMissing c.file tables with
    | none => createAll tables c = (.ok (), c)
    | some table =>
      if CannotCreate c.engine c.file table then ∃ e, createAll tables c = (.error e, c)
      else ((createAll tables c).2.file.tables table.1).isSome := by
  induction tables with
  | nil => rfl
  | cons table rest ih =>
    have hcons : createAll (table :: rest) =
        (sql (createTable table.1 table.2 true) >>= fun _ => createAll rest) := rfl
    rcases htable : c.file.tables table.1 with _ | t
    · have hfirst : firstMissing c.file (table :: rest) = some table := by
        simp [firstMissing, htable]
      rw [hfirst, hcons]
      dsimp only
      split
      · next hcannot =>
        obtain ⟨e, hcreate⟩ := createTable_cannot htable hcannot
        exact ⟨_, bind_error (sql_eq hcreate)⟩
      · next hcan =>
        rw [bind_ok (sql_eq (createTable_can htable hcan))]
        refine (createAll_grown rest _).tables table.1 ?_
        change (Function.update c.file.tables table.1 _ table.1).isSome
        rw [Function.update_self]
        rfl
    · have hsame : createTable table.1 table.2 true c = (.ok (), c) :=
        createTable_same (Option.isSome_of_eq_some htable)
      have hfirst : firstMissing c.file (table :: rest) = firstMissing c.file rest := by
        simp [firstMissing, htable]
      rwa [hfirst, hcons, bind_ok (sql_eq hsame)]

end Create

end Migration

namespace Db

open Migration

variable (engine : Engine) (f : File) (mountUid mountGid : UInt32) (now : Timestamp)

/-- Table creation and migration of `f` fail. -/
def UpgradeFails : Prop :=
  ∃ e, ((do createTables; migrate : Opening Unit) ⟨f, true, none, engine⟩).1 = .error e

/-- The file is of a newer version, or of an older one and cannot be migrated. -/
def Refused : Prop :=
  schemaVersion < f.userVersion ∨ f.userVersion < schemaVersion ∧ UpgradeFails engine f

/-- No table is created: none is missing, or the first one missing cannot be created. -/
def NothingToCreate : Prop :=
  ∀ table, firstMissing f currentTables = some table → CannotCreate engine f table

private theorem openFile_of_refused (h : Refused engine f) :
    ∃ e, openFile engine f mountUid mountGid now =
    (.error e, (createAll currentTables ⟨f, true, none, engine⟩).2.file) := by
  have hgrown := createAll_grown currentTables ⟨f, true, none, engine⟩
  rcases hcreate : createAll currentTables ⟨f, true, none, engine⟩ with ⟨r, c1⟩
  replace hgrown : Grown ⟨f, true, none, engine⟩ c1 := wp_of_run hgrown hcreate
  rcases r with e | _
  · refine ⟨e, ?_⟩
    have hinit : initializeFile mountUid mountGid now ⟨f, true, none, engine⟩ = (.error e, c1) :=
      bind_error hcreate
    rw [openFile, hinit]
  · rcases hmigrate : migrate c1 with ⟨r, c2⟩
    obtain ⟨hfile, hnewer⟩ := wp_of_run (migrate_spec c1) hmigrate
    have hfails : ∃ e, r = .error e := by
      rcases h with hversion | ⟨-, e, he⟩
      · rw [← show c1.file.userVersion = f.userVersion from hgrown.version] at hversion
        exact ⟨_, hnewer hversion⟩
      · have hupgrade : (do createTables; migrate : Opening Unit)
            ⟨f, true, none, engine⟩ = (r, c2) :=
          (bind_ok hcreate).trans hmigrate
        rw [hupgrade] at he
        exact ⟨e, he⟩
    obtain ⟨e, rfl⟩ := hfails
    refine ⟨e, ?_⟩
    have hinit : initializeFile mountUid mountGid now ⟨f, true, none, engine⟩ = (.error e, c2) :=
      (bind_ok hcreate).trans (bind_error hmigrate)
    rw [openFile, hinit]
    exact congrArg (Prod.mk _) (hfile e rfl)

/-- A refused or failed opening leaves the file as it was exactly where no table is created. -/
theorem unchanged_iff_of_refused (h : Refused engine f) :
    ((∃ e, (openFile engine f mountUid mountGid now).1 = .error e) ∧
      (openFile engine f mountUid mountGid now).2 = f) ↔ NothingToCreate engine f := by
  obtain ⟨e, hopen⟩ := openFile_of_refused engine f mountUid mountGid now h
  have hcases := createAll_cases currentTables ⟨f, true, none, engine⟩
  rw [hopen]
  constructor
  · rintro ⟨-, hsame⟩ table hfirst
    rw [hfirst] at hcases
    by_contra hcan
    have hcreated : ((createAll currentTables ⟨f, true, none, engine⟩).2.file.tables
        table.1).isSome := by
      simpa [hcan] using hcases
    have hnone : (f.tables table.1).isNone := by simpa using List.find?_some hfirst
    replace hsame : (createAll currentTables ⟨f, true, none, engine⟩).2.file = f := hsame
    rw [hsame, Option.isNone_iff_eq_none.mp hnone] at hcreated
    cases hcreated
  · intro hnothing
    refine ⟨⟨e, rfl⟩, ?_⟩
    rcases hfirst : firstMissing f currentTables with _ | table
    · rw [hfirst] at hcases
      exact congrArg (fun result => result.2.file) hcases
    · rw [hfirst] at hcases
      simp only [hnothing table hfirst, if_true] at hcases
      obtain ⟨e', he'⟩ := hcases
      exact congrArg (fun result => result.2.file) he'

theorem initializeFile_gives {c : Conn} {P : Conn → Prop}
    (hupgrade : Gives (do createTables; migrate : Opening Unit) () P c)
    (hworks : ∀ c', P c' → c'.engine.Works)
    (hinodes : ∀ c', P c' → ∃ t, c'.file.tables "inodes" = some t ∧ t.view = false ∧
      ∀ column ∈ inodesTable.columns, column ∈ t.columns)
    (hdirents : ∀ c', P c' → ∃ t, c'.file.tables "dirents" = some t ∧
      ∀ column ∈ ["parent_ino", "child_ino"], column ∈ t.columns) :
    ∃ claim c', P c' ∧ initializeFile mountUid mountGid now c =
      (.ok ((ofFile c'.file).initializeRows claim mountUid mountGid now), c') := by
  obtain ⟨⟨⟩, c₁, hcreate, hmigrate⟩ := bind_eq_ok.mp hupgrade.eq
  generalize hend : ((do createTables; migrate : Opening Unit) c).2 = c' at hmigrate
  have hP : P c' := hend ▸ hupgrade.2
  obtain ⟨t, ht, hview, hcolumns⟩ := hinodes c' hP
  obtain ⟨d, hd, hdcolumns⟩ := hdirents c' hP
  have hselect : ∀ name (t : Table) columns, c'.file.tables name = some t →
      (∀ column ∈ columns, column ∈ t.columns) → sql (select name columns) c' =
        (.ok t.rows, c') := by
    intro name t columns ht hcolumns
    refine sql_eq (r := .ok t.rows) ?_
    rw [select, bind_ok (findTable_eq ht), if_pos (by simpa using hcolumns),
      bind_ok (change_eq (hworks c' hP _ _))]
    rfl
  have hbase : sql (findBase "inodes" "cannot modify a view") c' = (.ok t, c') := by
    refine sql_eq (r := .ok t) ?_
    rw [findBase, bind_ok (findTable_eq ht), hview]
    rfl
  refine ⟨!t.rows.any ownedRoot, c', hP, ?_⟩
  rw [initializeFile, bind_ok hcreate, bind_ok hmigrate, bind_ok hbase,
    bind_ok (hselect _ t _ ht hcolumns), bind_ok (hselect _ d _ hd hdcolumns)]
  rfl

def newerFile : File where
  userVersion := 5
  tables name :=
    if name = "nodes" then
      some {
        columns := ["id"], rowid := some "id", primaryKey := ["id"], foreignKeys := [], rows := [] }
    else none
  indexes := []

/-- The newer file is refused, and has four more tables. -/
theorem unchanged_false : schemaVersion < newerFile.userVersion ∧
    (openFile .plain newerFile 0 0 ⟨9, 0⟩).1 = .error (.unsupportedSchema 5) ∧
    ¬(newerFile.tables "inodes").isSome ∧
    ((openFile .plain newerFile 0 0 ⟨9, 0⟩).2.tables "inodes").isSome ∧
    (openFile .plain newerFile 0 0 ⟨9, 0⟩).2 ≠ newerFile := by
  have hcreated : ((openFile .plain newerFile 0 0 ⟨9, 0⟩).2.tables "inodes").isSome := by decide
  refine ⟨by decide, by decide, by decide, hcreated, ?_⟩
  intro hsame
  rw [hsame] at hcreated
  revert hcreated
  decide

def newerStore : File where
  userVersion := 5
  tables name := (currentTables.lookup name)
  indexes := []

theorem unchanged_of_newerStore : Refused .plain newerStore ∧
    (openFile .plain newerStore 0 0 ⟨9, 0⟩).2 = newerStore := by
  have hrefused : Refused .plain newerStore := .inl (by decide)
  refine ⟨hrefused, ((unchanged_iff_of_refused .plain newerStore 0 0 ⟨9, 0⟩ hrefused).mpr ?_).2⟩
  have hnone : firstMissing newerStore currentTables = none := rfl
  intro table h
  rw [hnone] at h
  cases h

end Db

end VibeDbfs
