import VibeDbfs.Lib.SqlFrames
import VibeDbfs.Storage.Limits
import VibeDbfs.Storage.Rebuild

/-!
What opening an older file makes of its inodes: each keeps its number, kind and size, whatever the
file holds, and only a check of the chunks stands against numbers and sizes past the limits.
-/

set_option autoImplicit false
set_option relaxedAutoImplicit false

namespace VibeDbfs

open Lib Lib.Sql Lib.Prog

def FileKind.asI64 : FileKind → Int
  | .regularFile => 1
  | .directory => 2
  | .symlink => 3

def InodeRow.Swept (r : InodeRow) : Prop := r.kind ≠ .directory ∧ r.nlink = 0 ∧ r.ino ≠ 1

namespace Migration

/-- The columns of `inodes` that the limits and the sweep at opening depend on. -/
def headColumns : List String := ["ino", "kind", "size", "nlink"]

def head (r : Row) : List Value := headColumns.map r

def heads (f : Sql.File) : List (List Value) := (f.rowsOf "inodes").map head

/-- The columns of `inodes` that the limits depend on hold integers. -/
def Numbers (f : Sql.File) : Prop :=
  ∀ r ∈ f.rowsOf "inodes", ∀ column ∈ headColumns, ∃ i, r column = .integer i

variable {c c' : Conn} {f f' : Sql.File} {names : List String}

private theorem head_eq {r r' : Row} (h : head r = head r') :
    r "ino" = r' "ino" ∧ r "kind" = r' "kind" ∧ r "size" = r' "size" ∧ r "nlink" = r' "nlink" := by
  simpa [head, headColumns] using h

private theorem blind_heads (h : "inodes" ∉ names) : Blind names heads := by
  intro f f' hsame
  unfold heads
  rw [hsame "inodes" h]

private theorem head_column {r r' : Row} (h : head r = head r') {column : String}
    (hcolumn : column ∈ headColumns) : r column = r' column :=
  List.map_inj_left.mp h column hcolumn

private theorem Numbers.congr (h : Numbers f) (hheads : heads f' = heads f) : Numbers f' := by
  intro r' hr' column hcolumn
  have hmem : head r' ∈ heads f := hheads ▸ List.mem_map_of_mem hr'
  obtain ⟨r, hr, heq⟩ := List.mem_map.mp hmem
  rw [← head_column heq hcolumn]
  exact h r hr column hcolumn

section Steps

private theorem keeps_sql {α β : Type} {view : Sql.File → β} {x : Statement α} (h : Keeps view x) :
    Keeps view (sql x) := h.mapError

private theorem keeps_hasColumn {β : Type} {view : Sql.File → β} (table column : String) :
    Keeps view (tableHasColumn table column) := .bind .get fun _ => .pure _

private theorem keeps_addColumn {column : String} (hcolumn : column ∉ headColumns) (value : Value) :
    Keeps heads (addColumn "inodes" column value) := by
  constructor
  intro c a c' h hoff
  obtain ⟨hkeys, hrows⟩ := addColumn_ok h
  refine ⟨hkeys.trans hoff, ?_⟩
  unfold heads
  rw [hrows, List.map_map]
  apply List.map_congr_left
  intro r _
  apply List.map_congr_left
  intro n hn
  have hne : n ≠ column := by
    rintro rfl
    exact hcolumn hn
  exact Function.update_of_ne hne _ _

private theorem keeps_ensureNsecColumns : Keeps heads ensureNsecColumns := by
  apply Keeps.each
  intro column hcolumn
  refine (keeps_hasColumn _ _).bind fun _ => .ite (.pure _) (keeps_sql (keeps_addColumn ?_ _))
  revert column
  decide

private theorem keeps_rebuildDirents : Keeps heads rebuildDirents :=
  (keeps_sql (.createTable (blind_heads (by decide)) _ _ _)).bind fun _ =>
    (keeps_sql (.select _ _)).bind fun _ =>
      (keeps_sql (.insertInto (blind_heads (by decide)) _)).bind fun _ =>
        (keeps_sql (.dropTable (blind_heads (by decide)))).bind fun _ =>
          keeps_sql (.renameTable (blind_heads (by decide)))

private theorem keeps_rekeyFileChunks : Keeps heads rekeyFileChunks :=
  Keeps.get.bind fun _ => (keeps_sql (.select _ _)).bind fun _ => .ite (.throw _) <|
    (keeps_sql (.createTable (blind_heads (by decide)) _ _ _)).bind fun _ =>
      (keeps_sql (.select _ _)).bind fun _ => (keeps_sql (.select _ _)).bind fun _ =>
        (keeps_sql (.insertInto (blind_heads (by decide)) _)).bind fun _ =>
          (keeps_sql (.dropTable (blind_heads (by decide)))).bind fun _ =>
            keeps_sql (.renameTable (blind_heads (by decide)))

private theorem keeps_toVersion1 (version : Int) (splitTimestamps : Bool) :
    Keeps heads (toVersion1 version splitTimestamps) := .ite keeps_ensureNsecColumns (.pure _)

private theorem keeps_createIndex (index : Index) : Keeps heads (sql (createIndex index)) :=
  keeps_sql (.createIndex (blind_heads (by decide)) index)

private theorem keeps_toVersion2 (version : Int) : Keeps heads (toVersion2 version) :=
  .ite (keeps_createIndex _) (.pure _)

private theorem keeps_toVersion3 (version : Int) : Keeps heads (toVersion3 version) := by
  refine .ite ?_ (.pure _)
  have hcolumns : Keeps heads direntColumns :=
    (keeps_hasColumn _ _).bind fun _ => .ite (.pure _) keeps_rebuildDirents
  exact hcolumns.bind fun _ => (keeps_createIndex _).bind fun _ =>
    (keeps_createIndex _).bind fun _ =>
    keeps_createIndex _

private theorem sql_ok {α : Type} {x : Statement α} {a : α} (h : sql x c = (.ok a, c')) :
    x c = (.ok a, c') := by
  rcases hx : x c with ⟨r, c₁⟩
  rw [sql_eq hx] at h
  cases r with
  | error e => cases h
  | ok b =>
    cases h
    rfl

private theorem head_merged (engine : Engine) {r : Row}
    (h : ∀ column ∈ headColumns, ∃ i, r column = .integer i) :
    head (fun column => engine.keep column (mergedRow engine r column)) = head r := by
  refine List.map_congr_left fun column hcolumn => ?_
  have hsame : mergedRow engine r column = r column := by
    simp only [headColumns, List.mem_cons, List.not_mem_nil, or_false] at hcolumn
    rcases hcolumn with rfl | rfl | rfl | rfl <;> rfl
  obtain ⟨i, hi⟩ := h column hcolumn
  rw [hsame, hi]
  rfl

private theorem merge_heads (hids : Numbers c.file) (hoff : c.foreignKeys = false)
    (h : mergeTimestampColumns c = (.ok (), c')) :
    c'.foreignKeys = false ∧ heads c'.file = heads c.file := by
  rw [mergeTimestampColumns, get_bind] at h
  obtain ⟨⟨⟩, c₁, hcreate, hafter₁⟩ := bind_eq_ok.mp h
  obtain ⟨rows, c₂, hselect, hafter₂⟩ := bind_eq_ok.mp hafter₁
  obtain ⟨⟨⟩, c₃, hinsert, hafter₃⟩ := bind_eq_ok.mp hafter₂
  obtain ⟨⟨⟩, c₄, hdrop, hrename⟩ := bind_eq_ok.mp hafter₃
  obtain ⟨hkeys₁, hrows₁, hempty⟩ := createTable_ok (sql_ok hcreate)
  obtain ⟨hrows, hsame⟩ := select_ok (sql_ok hselect)
  obtain ⟨hkeys₃, -, t, t', htable, hrun, hnew⟩ := insertInto_ok (sql_ok hinsert)
  rw [hsame] at htable hkeys₃ hrun
  have hengine : c₁.engine = c.engine := createTable_engine (sql_ok hcreate)
  have hoff₃ : c₃.foreignKeys = false := hkeys₃.trans (hkeys₁.trans hoff)
  obtain ⟨hoff₄, hrows₄⟩ := dropTable_ok hoff₃ (sql_ok hdrop)
  obtain ⟨hkeys', hrows', -⟩ := renameTable_ok (sql_ok hrename)
  refine ⟨hkeys'.trans hoff₄, ?_⟩
  obtain rfl : { inodesTable with rows := [] } = t :=
    Option.some.inj ((hempty rfl).symm.trans htable)
  have hmerged : ∀ r ∈ rows.map (mergedRow c.engine), c₁.engine.keep "ino" (r "ino") ≠ .null := by
    intro r hr
    obtain ⟨old, hold, rfl⟩ := List.mem_map.mp hr
    rw [hrows, hrows₁] at hold
    obtain ⟨i, hi⟩ := hids old hold "ino" List.mem_cons_self
    change c₁.engine.keep "ino" (old "ino") ≠ .null
    rw [hi]
    nofun
  have hfilled : c'.file.rowsOf "inodes" = (c.file.rowsOf "inodes").map fun r column =>
      c.engine.keep column (mergedRow c.engine r column) := by
    rw [hrows', hrows₄ _ (by decide), hnew, insertRows_ok rfl hmerged hrun, hrows, hrows₁, hengine,
      List.map_map]
    rfl
  unfold heads
  rw [hfilled, List.map_map]
  exact List.map_congr_left fun r hr => head_merged c.engine (hids r hr)

private theorem keeps_chunkColumns : Keeps heads chunkColumns :=
  (keeps_hasColumn _ _).bind fun _ => .ite keeps_rekeyFileChunks (.pure _)

private theorem toVersion4_heads {version : Int} {splitTimestamps : Bool} (hids : Numbers c.file)
    (hoff : c.foreignKeys = false) (h : toVersion4 version splitTimestamps c = (.ok (), c')) :
    c'.foreignKeys = false ∧ heads c'.file = heads c.file := by
  unfold toVersion4 at h
  split at h
  · obtain ⟨⟨⟩, c₁, htimes, hchunks⟩ := bind_eq_ok.mp h
    have hmerged : c₁.foreignKeys = false ∧ heads c₁.file = heads c.file := by
      unfold timestampColumns at htimes
      split at htimes
      · exact merge_heads hids hoff htimes
      · exact (Keeps.pure ()).ends htimes hoff
    obtain ⟨hoff', hheads⟩ := keeps_chunkColumns.ends hchunks hmerged.1
    exact ⟨hoff', hheads.trans hmerged.2⟩
  · exact (Keeps.pure ()).ends h hoff

private theorem migrateSteps_heads {version : Int} (hids : Numbers c.file)
    (hoff : c.foreignKeys = false)
    (h : migrateSteps version c = (.ok (), c')) : heads c'.file = heads c.file := by
  obtain ⟨c₀, hbody, hfile, -⟩ := transaction_ok h
  obtain ⟨hasNs, c₁, hcolumn, hafter₁⟩ := bind_eq_ok.mp hbody
  obtain ⟨⟨⟩, c₂, h₁, hafter₂⟩ := bind_eq_ok.mp hafter₁
  obtain ⟨⟨⟩, c₃, h₂, hafter₃⟩ := bind_eq_ok.mp hafter₂
  obtain ⟨⟨⟩, c₄, h₃, hafter₄⟩ := bind_eq_ok.mp hafter₃
  obtain ⟨⟨⟩, c₅, h₄, hafter₅⟩ := bind_eq_ok.mp hafter₄
  obtain ⟨⟨⟩, c₆, hversion, hcommit⟩ := bind_eq_ok.mp hafter₅
  obtain ⟨hoff₁, heads₁⟩ := (keeps_hasColumn _ _ : Keeps heads _).ends hcolumn hoff
  obtain ⟨hoff₂, heads₂⟩ := (keeps_toVersion1 _ _).ends h₁ hoff₁
  obtain ⟨hoff₃, heads₃⟩ := (keeps_toVersion2 _).ends h₂ hoff₂
  obtain ⟨hoff₄, heads₄⟩ := (keeps_toVersion3 _).ends h₃ hoff₃
  have hbefore : heads c₄.file = heads c.file :=
    heads₄.trans (heads₃.trans (heads₂.trans heads₁))
  obtain ⟨hoff₅, heads₅⟩ := toVersion4_heads (hids.congr hbefore) hoff₄ h₄
  have hset : Keeps heads (sql (setUserVersion schemaVersion)) :=
    keeps_sql (.setUserVersion (blind_heads (by decide)) _)
  obtain ⟨hoff₆, heads₆⟩ := hset.ends hversion hoff₅
  obtain ⟨-, heads₇⟩ := (keeps_sql .commit : Keeps heads _).ends hcommit hoff₆
  rw [hfile, heads₇, heads₆, heads₅, hbefore]

private theorem migrate_heads (hids : Numbers c.file) (hsaved : c.saved = none)
    (h : migrate c = (.ok (), c')) : heads c'.file = heads c.file := by
  unfold migrate at h
  rw [get_bind] at h
  split at h
  · cases h
  · split at h
    · cases h
      rfl
    · obtain ⟨⟨⟩, c₁, henforce, hafter₁⟩ := bind_eq_ok.mp h
      obtain ⟨r, c₂, hsteps, hafter₂⟩ := bind_eq_ok.mp hafter₁
      obtain ⟨⟨⟩, c₃, hrestore, hend⟩ := bind_eq_ok.mp hafter₂
      cases henforce
      cases hrestore
      rcases hrun : migrateSteps c.file.userVersion (c.enforce false) with ⟨r', c₃⟩
      unfold Prog.attempt at hsteps
      rw [hrun] at hsteps
      cases hsteps
      cases r' with
      | error e => cases hend
      | ok v =>
        cases hend
        have hoff : (c.enforce false).foreignKeys = false := by
          unfold Conn.enforce
          rw [hsaved]
          rfl
        have hnumbers : Numbers (c.enforce false).file := by
          rwa [Conn.enforce_file]
        have hheads := migrateSteps_heads hnumbers hoff hrun
        rw [Conn.enforce_file] at hheads
        rw [Conn.enforce_file]
        exact hheads

end Steps

private theorem createAll_rows {tables : List (String × Table)} {u : Unit}
    (h : createAll tables c = (.ok u, c')) (n : String) : c'.file.rowsOf n = c.file.rowsOf n := by
  induction tables generalizing c with
  | nil =>
    cases h
    rfl
  | cons table rest ih =>
    obtain ⟨⟨⟩, c₁, hcreate, hrest⟩ := bind_eq_ok.mp h
    obtain ⟨-, hrows, -⟩ := createTable_ok (sql_ok hcreate)
    rw [ih hrest, hrows]

/-- What the store keeps of a row of `inodes`. -/
structure HeadOf (r : Row) (row : InodeRow) : Prop where
  ino : row.ino = u64 (r "ino")
  kind : row.kind = (FileKind.fromI64 (integer (r "kind"))).getD .symlink
  damaged : row.damaged = (FileKind.fromI64 (integer (r "kind"))).isNone
  size : row.size = u64 (r "size")
  nlink : row.nlink = u64 (r "nlink")

private theorem headOf_row {r r' : Row} (h : head r' = head r) : HeadOf r (InodeRow.ofRow r') := by
  obtain ⟨hino, hkind, hsize, hnlink⟩ := head_eq h
  exact ⟨congrArg u64 hino, by rw [← hkind]; rfl, by rw [← hkind]; rfl, congrArg u64 hsize,
    congrArg u64 hnlink⟩

/-- The columns of `inodes` that the limits depend on hold 64-bit integers, and the row ids are
distinct. -/
structure TypedInodes (f : Sql.File) : Prop where
  integers : ∀ r ∈ f.rowsOf "inodes", ∀ column ∈ headColumns,
    ∃ i, r column = .integer i ∧ i64Min ≤ i ∧ i ≤ i64Max
  distinct : ((f.rowsOf "inodes").map fun r => r "ino").Nodup

/-- The row, as the store will read it, is within the limits. -/
structure RowFits (r : Row) : Prop where
  ino : u64 (r "ino") ≤ maxIno
  size : r "kind" = .integer 1 → u64 (r "size") ≤ maxFileSize

def RowSwept (r : Row) : Prop :=
  r "kind" ≠ .integer 2 ∧ r "nlink" = .integer 0 ∧ r "ino" ≠ .integer 1

private theorem TypedInodes.numbers {f : Sql.File} (h : TypedInodes f) : Numbers f := by
  intro r hr column hcolumn
  obtain ⟨i, hi, -⟩ := h.integers r hr column hcolumn
  exact ⟨i, hi⟩

private theorem fromI64_eq_some {i : Int} {k : FileKind} :
    FileKind.fromI64 i = some k ↔ i = k.asI64 := by
  unfold FileKind.fromI64 FileKind.asI64
  split <;> cases k <;> simp_all

variable {r : Row} {row : InodeRow}

private theorem HeadOf.kind_iff (h : HeadOf r row) {i : Int} (hi : r "kind" = .integer i)
    {k : FileKind} (hk : k ≠ .symlink) : row.kind = k ↔ r "kind" = .integer k.asI64 := by
  rw [h.kind, hi, Value.integer.injEq, ← fromI64_eq_some]
  change (FileKind.fromI64 i).getD .symlink = k ↔ _
  rcases FileKind.fromI64 i with _ | k'
  · exact ⟨fun heq => (hk heq.symm).elim, nofun⟩
  · exact Option.some_inj.symm

private theorem u64_inj {i j : Int} (hi : i64Min ≤ i ∧ i ≤ i64Max) (hj : i64Min ≤ j ∧ j ≤ i64Max)
    (h : u64 (.integer i) = u64 (.integer j)) : i = j := by
  simp only [u64, integer, Value.int?_integer, Option.getD_some, u64Size] at h
  simp only [i64Min, i64Max] at hi hj
  cases i <;> cases j <;> simp only [Int.ofNat_eq_natCast] at * <;> omega

private theorem HeadOf.swept_iff (h : HeadOf r row)
    (hr : ∀ column ∈ headColumns, ∃ i, r column = .integer i ∧ i64Min ≤ i ∧ i ≤ i64Max) :
    row.Swept ↔ RowSwept r := by
  have hread : ∀ column ∈ headColumns, ∀ n : Nat, (n : Int) ≤ i64Max →
      (u64 (r column) = n ↔ r column = .integer n) := by
    intro column hcolumn n hn
    obtain ⟨i, hi, hrange⟩ := hr column hcolumn
    have hmin : i64Min ≤ (n : Int) := by
      simp only [i64Min]
      omega
    rw [hi, Value.integer.injEq]
    exact ⟨fun heq => u64_inj hrange ⟨hmin, hn⟩ heq, fun heq => heq ▸ rfl⟩
  obtain ⟨kind, hkind, -⟩ := hr "kind" (by decide)
  have hdirectory : row.kind = .directory ↔ r "kind" = .integer 2 := h.kind_iff hkind (by decide)
  have hnlink : row.nlink = 0 ↔ r "nlink" = .integer 0 := by
    rw [h.nlink]
    exact hread "nlink" (by decide) 0 (by decide)
  have hroot : row.ino = 1 ↔ r "ino" = .integer 1 := by
    rw [h.ino]
    exact hread "ino" (by decide) 1 (by decide)
  unfold InodeRow.Swept RowSwept
  rw [ne_eq, ne_eq, hdirectory, hnlink, hroot]

private theorem HeadOf.within_iff (h : HeadOf r row) {i : Int} (hi : r "kind" = .integer i) :
    row.Within ↔ RowFits r := by
  have hkind : row.kind = .regularFile ↔ r "kind" = .integer 1 := h.kind_iff hi (by decide)
  constructor
  · intro hwithin
    exact ⟨h.ino ▸ hwithin.ino, fun hregular => h.size ▸ hwithin.size (hkind.mpr hregular)⟩
  · rintro ⟨hino, hsize⟩
    refine ⟨h.ino ▸ hino, fun hregular => h.size ▸ hsize (hkind.mp hregular), fun hregular => ?_⟩
    rw [h.damaged, hkind.mp hregular]
    rfl

end Migration

namespace Db

open Migration

variable {engine : Engine} {f f' : Sql.File} {db : Db} {mountUid mountGid : UInt32}
  {now : Timestamp}

/-- The inodes of an opened store are those of the file, in their order, before the root and the
link counts are seen to. -/
private theorem heads_of_openFile (hids : Numbers f)
    (h : openFile engine f mountUid mountGid now = (.ok db, f')) :
    ∃ (db₀ : Db) (claim : Bool), db = db₀.initializeRows claim mountUid mountGid now ∧
      List.Forall₂ HeadOf (f.rowsOf "inodes") db₀.inodes := by
  rcases hinit : initializeFile mountUid mountGid now ⟨f, true, none, engine⟩ with ⟨r, c₃⟩
  have hr : r = .ok db := by
    unfold openFile at h
    rw [hinit] at h
    exact congrArg Prod.fst h
  subst hr
  obtain ⟨⟨⟩, c₁, hcreate, hafter₁⟩ := bind_eq_ok.mp hinit
  obtain ⟨⟨⟩, c₂, hmigrate, hafter₂⟩ := bind_eq_ok.mp hafter₁
  have hgrown : Grown ⟨f, true, none, engine⟩ c₁ :=
    wp_of_run (createAll_grown currentTables _) hcreate
  have hrows₁ := createAll_rows hcreate "inodes"
  have hheads₁ : heads c₁.file = heads f := by
    unfold heads
    rw [hrows₁]
  have hheads₂ : heads c₂.file = heads f :=
    (migrate_heads (hids.congr hheads₁) hgrown.saved hmigrate).trans hheads₁
  have hsame : List.Forall₂ (fun r' r => head r' = head r) (c₂.file.rowsOf "inodes")
      (f.rowsOf "inodes") := by
    rw [← List.forall₂_map_right_iff, ← List.forall₂_map_left_iff, List.forall₂_eq_eq_eq]
    exact hheads₂
  -- the reads after the migration leave the file as it is
  obtain ⟨_, c, hbase, hafter₃⟩ := bind_eq_ok.mp hafter₂
  obtain ⟨-, rfl⟩ := findBase_ok (sql_ok hbase)
  obtain ⟨rows, c, hselect, hafter₄⟩ := bind_eq_ok.mp hafter₃
  obtain ⟨-, rfl⟩ := select_ok (sql_ok hselect)
  obtain ⟨_, c, hentries, hafter₅⟩ := bind_eq_ok.mp hafter₄
  obtain ⟨-, rfl⟩ := select_ok (sql_ok hentries)
  cases hafter₅
  refine ⟨ofFile _, _, rfl, ?_⟩
  rw [ofFile, List.forall₂_map_right_iff]
  exact hsame.flip.imp fun _ _ heq => headOf_row heq

section Initialize

variable {db : Db}

private theorem inodes_sweep {inos : List Nat} :
    (inos.foldl deleteInodeRows db).inodes = db.inodes.filter fun r => r.ino ∉ inos := by
  induction inos generalizing db with
  | nil => simp
  | cons i inos ih =>
    rw [List.foldl_cons, ih]
    change (db.inodes.filter _).filter _ = _
    rw [List.filter_filter]
    apply List.filter_congr
    intro r _
    simp [Bool.and_comm]

private theorem inodes_recomputed (claim : Bool) (mountUid mountGid : UInt32) (now : Timestamp) :
    ∃ g : InodeRow → InodeRow,
      (if claim then db.claimRoot mountUid mountGid now else db).recomputeDirectoryNlink.inodes =
        db.inodes.map g ∧
        ∀ r, (g r).ino = r.ino ∧ (g r).kind = r.kind ∧ (g r).size = r.size ∧
          (g r).damaged = r.damaged ∧ ((g r).nlink = 0 ↔ r.kind ≠ .directory ∧ r.nlink = 0) := by
  cases claim with
  | true =>
    refine ⟨_, List.map_map, fun r => ?_⟩
    dsimp only [Function.comp_apply]
    split_ifs <;> simp_all
  | false =>
    refine ⟨_, rfl, fun r => ?_⟩
    split_ifs <;> simp_all

private theorem nodup_insertRoot (hkeys : (db.inodes.map InodeRow.ino).Nodup)
    (mountUid mountGid : UInt32) (now : Timestamp) :
    ((db.insertRoot mountUid mountGid now).inodes.map InodeRow.ino).Nodup := by
  unfold insertRoot
  dsimp only
  split
  · next hnone =>
    apply Keyed.nodup_append_singleton hkeys
    exact Keyed.find_eq_none_iff.mp (Option.isNone_iff_eq_none.mp hnone)
  · exact hkeys

private theorem mem_initializeRows (hkeys : (db.inodes.map InodeRow.ino).Nodup) (claim : Bool)
    (mountUid mountGid : UInt32) (now : Timestamp) :
    ∃ g : InodeRow → InodeRow,
      (∀ r, (g r).ino = r.ino ∧ (g r).kind = r.kind ∧ (g r).size = r.size ∧
        (g r).damaged = r.damaged) ∧
        ∀ r', r' ∈ (db.initializeRows claim mountUid mountGid now).inodes ↔
          ∃ r ∈ (db.insertRoot mountUid mountGid now).inodes, ¬r.Swept ∧ g r = r' := by
  have hroot := nodup_insertRoot hkeys mountUid mountGid now
  obtain ⟨g, hmap, hg⟩ := @inodes_recomputed (db.insertRoot mountUid mountGid now) claim mountUid
    mountGid now
  refine ⟨g, fun r => ⟨(hg r).1, (hg r).2.1, (hg r).2.2.1, (hg r).2.2.2.1⟩, fun r' => ?_⟩
  unfold initializeRows sweepOrphans
  rw [inodes_sweep, hmap, List.mem_filter, List.mem_map, decide_eq_true_eq]
  have hgone : ∀ r ∈ (db.insertRoot mountUid mountGid now).inodes, (g r).ino ∈
      (((db.insertRoot mountUid mountGid now).inodes.map g).filter fun r =>
        r.nlink = 0 ∧ r.ino ≠ 1).map InodeRow.ino ↔ r.Swept := by
    intro r hr
    simp only [List.mem_map, List.mem_filter, decide_eq_true_eq]
    constructor
    · rintro ⟨_, ⟨⟨q, hq, rfl⟩, hnlink, hino⟩, heq⟩
      rw [(hg q).1, (hg r).1] at heq
      obtain rfl := List.inj_on_of_nodup_map hroot hq hr heq
      obtain ⟨hfile, hzero⟩ := (hg q).2.2.2.2.mp hnlink
      exact ⟨hfile, hzero, (hg q).1 ▸ hino⟩
    · rintro ⟨hfile, hzero, hino⟩
      exact ⟨g r, ⟨⟨r, hr, rfl⟩, (hg r).2.2.2.2.mpr ⟨hfile, hzero⟩, (hg r).1.symm ▸ hino⟩, rfl⟩
  constructor
  · rintro ⟨⟨r, hr, rfl⟩, hkept⟩
    exact ⟨r, hr, fun hswept => hkept ((hgone r hr).mpr hswept), rfl⟩
  · rintro ⟨r, hr, hkept, rfl⟩
    exact ⟨⟨r, hr, rfl⟩, fun hmem => hkept ((hgone r hr).mp hmem)⟩

/-- What opening leaves is within the limits where the rows that it does not delete are. -/
private theorem limits_initializeRows (hkeys : (db.inodes.map InodeRow.ino).Nodup) (claim : Bool)
    (mountUid mountGid : UInt32) (now : Timestamp) :
    (db.initializeRows claim mountUid mountGid now).Limits ↔
      ∀ r ∈ db.inodes, r.Swept ∨ r.Within := by
  obtain ⟨g, hg, hmem⟩ := mem_initializeRows hkeys claim mountUid mountGid now
  constructor
  · intro hlimits r hr
    by_cases hswept : r.Swept
    · exact .inl hswept
    · right
      have hrow : r ∈ (db.insertRoot mountUid mountGid now).inodes := by
        unfold insertRoot
        dsimp only
        split
        · exact List.mem_append_left _ hr
        · exact hr
      have hwithin := hlimits (g r) ((hmem (g r)).mpr ⟨r, hrow, hswept, rfl⟩)
      exact hwithin.congr (hg r).1.symm (hg r).2.1.symm (hg r).2.2.1.symm (hg r).2.2.2.symm
  · intro h r' hr'
    obtain ⟨r, hr, hkept, rfl⟩ := (hmem r').mp hr'
    have hwithin : r.Within := by
      unfold insertRoot at hr
      dsimp only at hr
      split at hr
      · rcases List.mem_append.mp hr with hold | hroot
        · exact (h r hold).resolve_left hkept
        · rw [List.mem_singleton.mp hroot]
          exact ⟨show 1 ≤ maxIno by decide, nofun, nofun⟩
      · exact (h r hr).resolve_left hkept
    exact hwithin.congr (hg r).1 (hg r).2.1 (hg r).2.2.1 (hg r).2.2.2

end Initialize

/-- An opened store is within the limits exactly if every row of `inodes` that opening does not
delete was. -/
theorem limits_of_openFile (hids : TypedInodes f)
    (h : openFile engine f mountUid mountGid now = (.ok db, f')) :
    db.Limits ↔ ∀ r ∈ f.rowsOf "inodes", RowSwept r ∨ RowFits r := by
  obtain ⟨db₀, claim, rfl, hheads⟩ := heads_of_openFile hids.numbers h
  have hkeys : (db₀.inodes.map InodeRow.ino).Nodup := by
    have hread : (f.rowsOf "inodes").map (fun r => u64 (r "ino")) = db₀.inodes.map InodeRow.ino :=
      Paired.map_eq hheads fun r row hr => hr.ino.symm
    have hnodup : ((f.rowsOf "inodes").map fun r => u64 (r "ino")).Nodup := by
      refine List.Nodup.map_on ?_ (List.Nodup.of_map _ hids.distinct)
      intro r hr r' hr' heq
      apply List.inj_on_of_nodup_map hids.distinct hr hr'
      obtain ⟨i, hi, hrange⟩ := hids.integers r hr "ino" List.mem_cons_self
      obtain ⟨j, hj, hrange'⟩ := hids.integers r' hr' "ino" List.mem_cons_self
      rw [hi, hj] at heq ⊢
      rw [u64_inj hrange hrange' heq]
    rwa [hread] at hnodup
  rw [limits_initializeRows hkeys]
  have hrows : ∀ r row, r ∈ f.rowsOf "inodes" ∧ HeadOf r row →
      (row.Swept ∨ row.Within ↔ RowSwept r ∨ RowFits r) := by
    rintro r row ⟨hr, hrow⟩
    obtain ⟨kind, hkind, -⟩ := hids.integers r hr "kind" (by decide)
    rw [hrow.swept_iff (hids.integers r hr), hrow.within_iff hkind]
  have hmembers := Paired.and_left hheads (P := (· ∈ f.rowsOf "inodes")) fun r hr => hr
  constructor
  · intro hall r hr
    obtain ⟨row, hrow, hboth⟩ := Paired.mem_left hmembers hr
    exact (hrows r row hboth).mp (hall row hrow)
  · intro hall row hrow
    obtain ⟨r, hr, hboth⟩ := Paired.mem_left hmembers.flip hrow
    exact (hrows r row hboth).mpr (hall r hr)

end Db

end VibeDbfs
