import VibeDbfs.Lib.Paired
import VibeDbfs.Storage.Legacy
import VibeDbfs.Storage.Opening

/-!
The steps of the migration on a file in an older layout: what each leaves in the four tables.
-/

set_option autoImplicit false
set_option relaxedAutoImplicit false

namespace VibeDbfs

open Lib Lib.Sql Lib.Prog

namespace Migration

section Create

variable {f : File} {table : String × Table} {rest : List (String × Table)}

/-- `f` with the tables of `tables` that it lacks, empty. -/
def withCreated (f : File) (tables : List (String × Table)) : File :=
  { f with
    tables := fun name => (f.tables name).or
      ((tables.lookup name).map fun t => { t with rows := [] }) }

private theorem withCreated_nil : withCreated f [] = f := by
  simp [withCreated]

private theorem withCreated_present (h : (f.tables table.1).isSome) :
    withCreated f (table :: rest) = withCreated f rest := by
  refine congrArg (fun tables => ({ f with tables := tables } : File)) (funext fun name => ?_)
  by_cases hname : name = table.1
  · obtain ⟨t, ht⟩ := Option.isSome_iff_exists.mp h
    rw [hname, ht]
    rfl
  · rw [List.lookup_cons, beq_false_of_ne hname]

private theorem withCreated_missing (h : f.tables table.1 = none) :
    withCreated (f.setTable table.1 (some { table.2 with rows := [] })) rest =
      withCreated f (table :: rest) := by
  refine congrArg (fun tables => ({ f with tables := tables } : File)) (funext fun name => ?_)
  change (Function.update f.tables table.1 _ name).or _ = _
  by_cases hname : name = table.1
  · have hlookup : List.lookup table.1 (table :: rest) = some table.2 := List.lookup_cons_self
    rw [hname, Function.update_self, h, hlookup]
    rfl
  · rw [Function.update_of_ne hname, List.lookup_cons, beq_false_of_ne hname]

private theorem createAll_eq {tables : List (String × Table)} {c : Conn} (hworks : c.engine.Works)
    (hindex : ∀ table ∈ tables, c.file.hasIndex table.1 = false) :
    createAll tables c = (.ok (), { c with file := withCreated c.file tables }) := by
  induction tables generalizing c with
  | nil =>
    rw [withCreated_nil]
    rfl
  | cons table rest ih =>
    have hcons : createAll (table :: rest) =
        (sql (createTable table.1 table.2 true) >>= fun _ => createAll rest) := rfl
    have hrest : ∀ other ∈ rest, c.file.hasIndex other.1 = false :=
      fun other hother => hindex other (List.mem_cons_of_mem _ hother)
    rcases htable : c.file.tables table.1 with _ | t
    · have hcan : ¬CannotCreate c.engine c.file table := by
        rw [CannotCreate, hindex table List.mem_cons_self, hworks]
        simp
      rw [hcons, bind_ok (sql_eq (createTable_can htable hcan)), ← withCreated_missing htable]
      exact ih hworks hrest
    · have hsome : (c.file.tables table.1).isSome := Option.isSome_of_eq_some htable
      rw [hcons, bind_ok (sql_eq (createTable_same hsome)), withCreated_present hsome]
      exact ih hworks hrest

end Create

def tablesOf (inodes dirents chunks targets : Table) : String → Option Table := fun name =>
  if name = "inodes" then some inodes
  else if name = "dirents" then some dirents
  else if name = "file_chunks" then some chunks
  else if name = "symlink_targets" then some targets
  else none

section TablesOf

variable (i d k s t : Table)

@[simp] theorem tablesOf_inodes : tablesOf i d k s "inodes" = some i := rfl

@[simp] theorem tablesOf_dirents : tablesOf i d k s "dirents" = some d := rfl

@[simp] theorem tablesOf_chunks : tablesOf i d k s "file_chunks" = some k := rfl

@[simp] theorem tablesOf_targets : tablesOf i d k s "symlink_targets" = some s := rfl

private theorem plain_tablesOf {i d k s : Table} (hi : i.Plain) (hd : d.Plain) (hk : k.Plain)
    (hs : s.Plain) (name : String) (t : Table) (h : tablesOf i d k s name = some t) : t.Plain := by
  unfold tablesOf at h
  split_ifs at h
  all_goals cases h
  · exact hi
  · exact hd
  · exact hk
  · exact hs

@[simp] theorem update_inodes :
    Function.update (tablesOf i d k s) "inodes" (some t) = tablesOf t d k s := by
  funext name
  by_cases h : name = "inodes" <;> simp [tablesOf, Function.update, h]

@[simp] theorem update_dirents :
    Function.update (tablesOf i d k s) "dirents" (some t) = tablesOf i t k s := by
  funext name
  by_cases h : name = "dirents" <;> simp [tablesOf, Function.update, h]

@[simp] theorem update_chunks :
    Function.update (tablesOf i d k s) "file_chunks" (some t) = tablesOf i d t s := by
  funext name
  by_cases h : name = "file_chunks" <;> simp [tablesOf, Function.update, h]

end TablesOf

section Rows

variable {r : Row} {o : LegacyInode} {engine : Engine}

private theorem int?_eq_some {v : Value} {i : Int} : v.int? = some i ↔ v = .integer i := by
  cases v <;> simp [Value.int?]

theorem nat?_eq_some {v : Value} {n : Nat} : nat? v = some n ↔ v = .integer n := by
  rw [nat?, Option.bind_eq_some_iff]
  constructor
  · rintro ⟨i, hi, hn⟩
    obtain ⟨hpos, hn⟩ := Option.ite_some_none_eq_some.mp hn
    rw [int?_eq_some.mp hi, ← hn, Int.toNat_of_nonneg hpos]
  · rintro rfl
    exact ⟨n, rfl, by simp⟩

theorem blob?_eq_some {v : Value} {b : Bytes} : v.blob? = some b ↔ v = .blob b := by
  cases v <;> simp [Value.blob?]

private theorem u32?_eq_some {v : Value} {n : UInt32} : u32? v = some n ↔ v = .integer n.toNat := by
  rw [u32?, Option.bind_eq_some_iff]
  constructor
  · rintro ⟨i, hi, hn⟩
    obtain ⟨⟨hlow, hhigh⟩, rfl⟩ := Option.ite_some_none_eq_some.mp hn
    rw [int?_eq_some.mp hi, UInt32.toNat_ofNat_of_lt' (by simp only [UInt32.size]; omega),
      Int.toNat_of_nonneg hlow]
  · rintro rfl
    have hlt : n.toNat < 4294967296 := n.toNat_lt
    exact ⟨n.toNat, rfl, by simp; omega⟩

@[simp] theorem u64_natCast (n : Nat) : u64 (.integer n) = n := rfl

@[simp] theorem u32_toNat (n : UInt32) : u32 (.integer n.toNat) = n := by
  have hlt : n.toNat < 4294967296 := n.toNat_lt
  have hmod : ((n.toNat : Int) % 4294967296).toNat = n.toNat := by omega
  change UInt32.ofNat ((n.toNat : Int) % 4294967296).toNat = n
  rw [hmod, UInt32.ofNat_toNat]

structure HoldsInode (r : Row) (o : LegacyInode) : Prop where
  ino : r "ino" = .integer o.ino
  kind : ∃ kind, r "kind" = .integer kind ∧ FileKind.fromI64 kind = some o.kind
  mode : r "mode" = .integer o.mode.toNat
  uid : r "uid" = .integer o.uid.toNat
  gid : r "gid" = .integer o.gid.toNat
  size : r "size" = .integer o.size
  nlink : r "nlink" = .integer o.nlink

private theorem legacyInode_row (h : LegacyInode.ofRow r = some o) : HoldsInode r o := by
  simp only [LegacyInode.ofRow, Option.bind_eq_bind, Option.bind_eq_some_iff,
    Option.some.injEq] at h
  obtain ⟨ino, hino, kind, ⟨i, hi, hkind⟩, mode, hmode, uid, huid, gid, hgid, size, hsize, nlink,
    hnlink, rfl⟩ := h
  exact ⟨nat?_eq_some.mp hino, ⟨i, int?_eq_some.mp hi, hkind⟩, u32?_eq_some.mp hmode,
    u32?_eq_some.mp huid, u32?_eq_some.mp hgid, nat?_eq_some.mp hsize, nat?_eq_some.mp hnlink⟩

/-- The times are whole seconds and a fraction below one second. -/
structure SplitRow (r : Row) (o : LegacyInode) : Prop where
  inode : LegacyInode.ofRow r = some o
  seconds : ∀ column ∈ ["atime", "mtime", "ctime"], ∃ secs, r column = .integer secs
  fractions : ∀ column ∈ Legacy.nsecColumns,
    ∃ nsec, r column = .integer nsec ∧ 0 ≤ nsec ∧ nsec < 1000000000

private theorem ns_integer {secs nsec : Int} (hlow : 0 ≤ nsec) (hhigh : nsec < 1000000000) :
    ∃ n, ns engine (.integer secs) (.integer nsec) = .integer n := by
  unfold ns
  dsimp only
  split
  · exact ⟨_, rfl⟩
  · split
    · exact ⟨_, rfl⟩
    · split
      · exact ⟨_, if_pos (by simp only [i64Min, i64Max]; omega)⟩
      · exact ⟨_, if_pos (by simp only [i64Min, i64Max]; omega)⟩

private theorem SplitRow.time (h : SplitRow r o) (engine : Engine) (secs nsec : String)
    (hsecs : secs ∈ ["atime", "mtime", "ctime"])
    (hnsec : nsec ∈ Legacy.nsecColumns) : ∃ n, ns engine (r secs) (r nsec) = .integer n := by
  obtain ⟨s, hs⟩ := h.seconds secs hsecs
  obtain ⟨n, hn, hlow, hhigh⟩ := h.fractions nsec hnsec
  rw [hs, hn]
  exact ns_integer hlow hhigh

/-- The row is that of the older inode; only the times are new. -/
structure SameInode (o : LegacyInode) (row : InodeRow) : Prop where
  ino : row.ino = o.ino
  kind : row.kind = o.kind
  mode : row.mode = o.mode
  uid : row.uid = o.uid
  gid : row.gid = o.gid
  size : row.size = o.size
  nlink : row.nlink = o.nlink
  damaged : row.damaged = false

private theorem SplitRow.merged_values (h : SplitRow r o) (engine : Engine) : ∃ values :
    List (String × Int),
    mergedRow engine r = Sql.row (values.map fun p => (p.1, .integer p.2)) ∧
      values.map Prod.fst = inodesTable.columns := by
  obtain ⟨hi, ⟨kind, hkind, -⟩, hmode, huid, hgid, hs, hn⟩ := legacyInode_row h.inode
  obtain ⟨atime, hatime⟩ := h.time engine "atime" "atime_nsec" (by simp)
    (by simp [Legacy.nsecColumns])
  obtain ⟨mtime, hmtime⟩ := h.time engine "mtime" "mtime_nsec" (by simp)
    (by simp [Legacy.nsecColumns])
  obtain ⟨ctime, hctime⟩ := h.time engine "ctime" "ctime_nsec" (by simp)
    (by simp [Legacy.nsecColumns])
  refine ⟨[("ino", o.ino), ("kind", kind), ("mode", o.mode.toNat), ("uid", o.uid.toNat),
    ("gid", o.gid.toNat), ("size", o.size), ("atime_ns", atime), ("mtime_ns", mtime),
    ("ctime_ns", ctime), ("nlink", o.nlink)], ?_, rfl⟩
  rw [mergedRow, hi, hkind, hmode, huid, hgid, hs, hn, hatime, hmtime, hctime]
  rfl

theorem SplitRow.merged (h : SplitRow r o) : SameInode o (InodeRow.ofRow (mergedRow engine r)) := by
  obtain ⟨hi, ⟨kind, hk, hkind⟩, hmode, huid, hgid, hs, hn⟩ := legacyInode_row h.inode
  constructor <;>
    simp [InodeRow.ofRow, mergedRow, integer, hi, hk, hkind, hmode, huid, hgid, hs, hn]

private theorem SplitRow.merged_ne_null (h : SplitRow r o) :
    ∀ column ∈ inodesTable.columns, mergedRow engine r column ≠ .null := by
  obtain ⟨values, hrow, hcolumns⟩ := h.merged_values engine
  rw [hrow]
  exact fun column hcolumn => row_ne_null (hcolumns ▸ hcolumn)

private theorem SplitRow.merged_exact (h : SplitRow r o) : Exact (mergedRow engine r) := by
  obtain ⟨values, hrow, -⟩ := h.merged_values engine
  rw [hrow]
  refine exact_row fun p hp => ?_
  obtain ⟨q, -, rfl⟩ := List.mem_map.mp hp
  exact fun _ _ => rfl

end Rows

def storeIndexes : List Index := [direntsName, direntsChild, direntsScan]

section Steps

variable {c : Conn} {version : Int} {data : String → Option Table} {i d k s t : Table}
  {old : Legacy}

private theorem tableHasColumn_gives (h : c.Holds storeIndexes version data) {name : String}
    (ht : data name = some t) (column : String) :
    Gives (tableHasColumn name column) (decide (column ∈ t.columns))
      (Conn.Holds · storeIndexes version data) c := by
  obtain ⟨t', hfind, rfl⟩ := h.table ht
  have hcapitals : t'.capitals = [] := (h.plain name _ ht).capitals
  refine ⟨?_, h⟩
  change Except.ok ((c.file.tables name).any fun t =>
    decide (column ∈ t.columns ∧ column ∉ t.capitals)) = _
  rw [hfind, Option.any_some, hcapitals]
  exact congrArg Except.ok (decide_eq_decide.mpr (and_iff_left (List.not_mem_nil)))

private theorem rebuild_gives {name other : String} {blank filled : Table} {rows : List Row}
    (hother : data other = none) (ht : data name = some t) (hne : name ≠ other)
    (hindexes : ∀ index ∈ storeIndexes, index.table ≠ other ∧ index.name ≠ name)
    (hinsert : Gives (insertInto other rows) () (Conn.Holds · storeIndexes version
      (Function.update (Function.update data other (some blank)) other (some filled))) c) :
    Gives (do
        sql (insertInto other rows)
        sql (dropTable name)
        sql (renameTable other name) : Opening Unit) ()
      (Conn.Holds · storeIndexes version (Function.update data name (some filled))) c := by
  refine Gives.bind hinsert.mapError fun c1 h1 => ?_
  refine Gives.bind (dropTable_gives h1 (t := t) ?_).mapError fun c2 h2 => ?_
  · rw [Function.update_of_ne hne, Function.update_of_ne hne, ht]
  · rw [← rebuilt_data blank hother]
    refine (renameTable_gives h2 ?_ ?_ hindexes).mapError
    · rw [Function.update_of_ne hne.symm, Function.update_self]
    · rw [Function.update_self]

/-- `r` with zeros in the columns of `names` that the table lacks. -/
def padRow (columns names : List String) (r : Row) : Row := fun column =>
  if column ∈ names ∧ column ∉ columns then .integer 0 else r column

private theorem addColumns_gives (names : List String)
    (h : c.Holds storeIndexes version (tablesOf i d k s)) :
    Gives (each (fun column => do
        if ← tableHasColumn "inodes" column then pure ()
        else sql (addColumn "inodes" column (.integer 0)) : String → Opening Unit) names) ()
      (fun c' => ∃ i', c'.Holds storeIndexes version (tablesOf i' d k s) ∧
        (∀ column, column ∈ i'.columns ↔ column ∈ i.columns ∨ column ∈ names) ∧
        i'.rows = i.rows.map (padRow i.columns names)) c := by
  induction names generalizing c i with
  | nil =>
    have hid : padRow i.columns [] = id := by
      funext r column
      simp [padRow]
    exact ⟨rfl, i, h, by simp, by rw [hid, List.map_id]⟩
  | cons column names ih =>
    by_cases hin : column ∈ i.columns
    · refine Gives.bind (a := ()) (R := (Conn.Holds · storeIndexes version (tablesOf i d k s))) ?_
        fun c1 h1 => ?_
      · refine (tableHasColumn_gives h (tablesOf_inodes i d k s) column).bind fun c1 h1 => ?_
        rw [if_pos (by simpa using hin)]
        exact ⟨rfl, h1⟩
      · obtain ⟨hok, i', hi', hcolumns, hrows⟩ := ih h1
        refine ⟨hok, i', hi', fun other => ?_, ?_⟩
        · rw [hcolumns, List.mem_cons]
          constructor
          · exact fun h => h.imp_right .inr
          · rintro (h | rfl | h)
            · exact .inl h
            · exact .inl hin
            · exact .inr h
        · rw [hrows]
          refine List.map_congr_left fun r _ => funext fun other => ?_
          by_cases hother : other = column
          · simp [padRow, hother, hin]
          · simp [padRow, hother]
    · refine Gives.bind (a := ()) (R := (Conn.Holds · storeIndexes version (tablesOf { i with
        columns := i.columns ++ [column]
        rows := i.rows.map fun r => Function.update r column (.integer 0) } d k s))) ?_
        fun c1 h1 => ?_
      · refine (tableHasColumn_gives h (tablesOf_inodes i d k s) column).bind fun c1 h1 => ?_
        have hadd := addColumn_gives h1 (tablesOf_inodes i d k s) hin (.integer 0)
        rw [update_inodes] at hadd
        rw [if_neg (by simpa using hin)]
        exact hadd.mapError
      · obtain ⟨hok, i', hi', hcolumns, hrows⟩ := ih h1
        refine ⟨hok, i', hi', fun other => ?_, ?_⟩
        · rw [hcolumns, List.mem_cons, List.mem_append, List.mem_singleton, or_assoc]
        · rw [hrows, List.map_map]
          refine List.map_congr_left fun r _ => funext fun other => ?_
          by_cases hother : other = column
          · simp [padRow, hother, hin]
          · simp [padRow, hother]

/-- `inodes` with seconds and fractions for the older inodes. -/
structure SplitInodes (old : Legacy) (t : Table) : Prop where
  columns : ∀ column ∈ ["ino", "kind", "mode", "uid", "gid", "size", "atime", "atime_nsec", "mtime",
    "mtime_nsec", "ctime", "ctime_nsec", "nlink"], column ∈ t.columns
  rows : List.Forall₂ SplitRow t.rows old.inodes

private theorem padded_row {columns : List String} {r : Row} {o : LegacyInode}
    (h : LegacyInode.ofRow r = some o)
    (hseconds : ∀ column ∈ ["atime", "mtime", "ctime"], ∃ secs, r column = .integer secs)
    (hfractions : ∀ column ∈ Legacy.nsecColumns, column ∈ columns →
      ∃ nsec, r column = .integer nsec ∧ 0 ≤ nsec ∧ nsec < 1000000000) :
    SplitRow (padRow columns Legacy.nsecColumns r) o := by
  have hsame : ∀ column, column ∉ Legacy.nsecColumns →
      padRow columns Legacy.nsecColumns r column = r column :=
    fun column hcolumn => if_neg fun hboth => hcolumn hboth.1
  refine ⟨?_, fun column hcolumn => ?_, fun column hcolumn => ?_⟩
  · rw [← h]
    simp only [LegacyInode.ofRow, hsame "ino" (by decide), hsame "kind" (by decide),
      hsame "mode" (by decide), hsame "uid" (by decide), hsame "gid" (by decide),
      hsame "size" (by decide), hsame "nlink" (by decide)]
  · have hother : ∀ column ∈ ["atime", "mtime", "ctime"], column ∉ Legacy.nsecColumns := by decide
    rw [hsame column (hother column hcolumn)]
    exact hseconds column hcolumn
  · by_cases hin : column ∈ columns
    · rw [padRow, if_neg fun hboth => hboth.2 hin]
      exact hfractions column hcolumn hin
    · rw [padRow, if_pos ⟨hcolumn, hin⟩]
      exact ⟨0, rfl, Int.le_refl 0, by decide⟩

private theorem toVersion1_gives (h : c.Holds storeIndexes version (tablesOf i d k s))
    (hlayout : Legacy.InodesLayout version i)
    (hrows : List.Forall₂ (fun r o => LegacyInode.ofRow r = some o) i.rows old.inodes) :
    Gives (toVersion1 version true) () (fun c' => ∃ i',
      c'.Holds storeIndexes version (tablesOf i' d k s) ∧ SplitInodes old i') c := by
  have hnames : ∀ column ∈ ["ino", "kind", "mode", "uid", "gid", "size", "atime", "atime_nsec",
      "mtime", "mtime_nsec", "ctime", "ctime_nsec", "nlink"],
      column ∈ ["ino", "kind", "mode", "uid", "gid", "size", "atime", "mtime", "ctime", "nlink"] ∨
        column ∈ Legacy.nsecColumns := by decide
  have htimes := Paired.and_left hrows fun r hr =>
    And.intro (hlayout.seconds r hr) (hlayout.fractions r hr)
  unfold toVersion1
  split
  · obtain ⟨hok, i', hi', hcolumns, hpad⟩ := addColumns_gives Legacy.nsecColumns h
    refine ⟨hok, i', hi', fun column hcolumn => ?_, ?_⟩
    · exact (hcolumns column).mpr ((hnames column hcolumn).imp_left (hlayout.columns column))
    · rw [hpad, List.forall₂_map_left_iff]
      exact htimes.imp fun _ _ hro => padded_row hro.2 hro.1.1 hro.1.2
  · next hversion =>
    have hnsec := hlayout.nsec (Int.not_lt.mp fun hlt => hversion ⟨hlt, rfl⟩)
    refine ⟨rfl, i, h, fun column hcolumn => ?_, ?_⟩
    · exact (hnames column hcolumn).elim (hlayout.columns column) (hnsec column)
    · exact htimes.imp fun _ _ hro =>
        ⟨hro.2, hro.1.1, fun column hcolumn => hro.1.2 column hcolumn (hnsec column hcolumn)⟩

/-- The table that `merge_timestamp_columns` leaves. -/
def mergedInodes (engine : Engine) (t : Table) : Table :=
  { inodesTable with rows := t.rows.map (mergedRow engine) }

private theorem merge_gives (h : c.Holds storeIndexes version (tablesOf i d k s))
    (hi : SplitInodes old i) (hold : old.Valid) : Gives mergeTimestampColumns ()
      (Conn.Holds · storeIndexes version (tablesOf (mergedInodes c.engine i) d k s)) c := by
  have hother : tablesOf i d k s "inodes_v4" = none := rfl
  refine Gives.get (Gives.bind (createTable_gives (t := inodesTable) h hother ⟨rfl, rfl⟩ (by decide)
    false).mapError fun c1 h1 => ?_)
  have hsource : Function.update (tablesOf i d k s) "inodes_v4"
      (some { inodesTable.bare with rows := [] }) "inodes" = some i := rfl
  refine Gives.bind (select_gives h1 hsource hi.columns).mapError fun c2 h2 => ?_
  have hids : i.rows.map (fun r => mergedRow c.engine r "ino") =
      old.inodes.map fun o => Value.integer o.ino :=
    Paired.map_eq hi.rows fun r o h => by simpa [mergedRow] using (legacyInode_row h.inode).ino
  have hmember : ∀ r ∈ i.rows.map (mergedRow c.engine),
      ∃ q o, r = mergedRow c.engine q ∧ SplitRow q o := by
    intro r hr
    obtain ⟨q, hq, rfl⟩ := List.mem_map.mp hr
    obtain ⟨o, -, hqo⟩ := Paired.mem_left hi.rows hq
    exact ⟨q, o, rfl, hqo⟩
  have hinsert := insertKeyed_gives (k := "ino") (i.rows.map (mergedRow c.engine)) h2
    (Function.update_self ..) (by decide) ?_ rfl rfl ?_ ?_ ?_
  · rw [← update_inodes i]
    exact rebuild_gives hother (tablesOf_inodes i d k s) (by decide) (by decide) hinsert
  · intro r hr
    obtain ⟨q, o, rfl, hqo⟩ := hmember r hr
    exact hqo.merged_exact
  · intro r hr
    obtain ⟨q, o, rfl, hqo⟩ := hmember r hr
    exact ⟨o.ino, by simpa [mergedRow] using (legacyInode_row hqo.inode).ino⟩
  · change ((i.rows.map (mergedRow c.engine)).map fun r : Row => r "ino").Nodup
    rw [List.map_map]
    refine (congrArg List.Nodup hids).mpr ?_
    have hsplit : old.inodes.map (fun o => Value.integer o.ino) =
        (old.inodes.map LegacyInode.ino).map fun n : Nat => Value.integer n := by
      rw [List.map_map]
      rfl
    rw [hsplit]
    exact hold.inodes.map fun a b hab => by simpa using hab
  · intro r hr
    obtain ⟨q, o, rfl, hqo⟩ := hmember r hr
    exact hqo.merged_ne_null

end Steps

section Dirents

variable {c : Conn} {version : Int} {i d k s t : Table} {old : Legacy}

/-- `dirents` in the current layout, with the older entries. -/
structure CurrentDirents (old : Legacy) (t : Table) : Prop where
  columns : ∀ column ∈ direntsTable.columns, column ∈ t.columns
  rows : ∃ es, List.Forall₂ (fun r e => LegacyEntry.ofRow r = some e) t.rows es ∧
    es.Perm old.entries

private theorem legacyEntry_row {r : Row} {e : LegacyEntry} (h : LegacyEntry.ofRow r = some e) :
    r "parent_ino" = .integer e.parentIno ∧ r "name" = .blob e.name ∧
      r "child_ino" = .integer e.childIno := by
  simp only [LegacyEntry.ofRow, Option.bind_eq_bind, Option.bind_eq_some_iff,
    Option.some.injEq] at h
  obtain ⟨parent, hparent, name, hname, child, hchild, rfl⟩ := h
  exact ⟨nat?_eq_some.mp hparent, blob?_eq_some.mp hname, nat?_eq_some.mp hchild⟩

private theorem dirent_ofRow {r : Row} {e : LegacyEntry} (h : LegacyEntry.ofRow r = some e) :
    (Dirent.ofRow r).triple = e.triple := by
  obtain ⟨hparent, hname, hchild⟩ := legacyEntry_row h
  simp [Dirent.ofRow, Dirent.triple, LegacyEntry.triple, hparent, hname, hchild, Value.blob?]

theorem CurrentDirents.triples (h : CurrentDirents old t) :
    ((t.rows.map Dirent.ofRow).map Dirent.triple).Perm (old.entries.map LegacyEntry.triple) := by
  obtain ⟨es, hes, hperm⟩ := h.rows
  rw [List.map_map, Paired.map_eq (f := Dirent.triple ∘ Dirent.ofRow) hes fun _ _ h =>
    dirent_ofRow h]
  exact hperm.map _

private theorem current_of_id (hlayout : Legacy.DirentsLayout version t)
    (hrows : List.Forall₂ (fun r e => LegacyEntry.ofRow r = some e) t.rows old.entries)
    (hid : "id" ∈ t.columns) : CurrentDirents old t := by
  have hnames : ∀ column ∈ direntsTable.columns,
      column = "id" ∨ column ∈ ["parent_ino", "name", "child_ino"] := by decide
  refine ⟨fun column hcolumn => ?_, ?_⟩
  · rcases hnames column hcolumn with rfl | hcolumn
    · exact hid
    · exact hlayout.columns column hcolumn
  · exact ⟨old.entries, hrows, .refl _⟩

private theorem current_of_rebuilt
    (hrows : List.Forall₂ (fun r e => LegacyEntry.ofRow r = some e) t.rows old.entries)
    {new : List Row} (hnew : List.Forall₂ (fun r r' => ∃ id : Int, 0 < id ∧
      r' = Function.update r "id" (.integer id))
      ((t.rows.insertionSort (orderBy "parent_ino" "name")).map entryRow) new) :
    CurrentDirents old { direntsTable.bare with rows := new } := by
  obtain ⟨es, hes, hperm⟩ := List.perm_comp_forall₂
    (List.perm_insertionSort (orderBy "parent_ino" "name") t.rows) hrows
  rw [List.forall₂_map_left_iff] at hnew
  refine ⟨fun _ h => h, es, (Paired.join hnew hes).imp ?_, hperm⟩
  rintro _ e ⟨r, ⟨id, -, rfl⟩, he⟩
  rw [← he]
  simp [LegacyEntry.ofRow, entryRow, Function.update]

private theorem rebuildDirents_gives (h : c.Holds storeIndexes version (tablesOf i d k s))
    (hlayout : Legacy.DirentsLayout version d)
    (hrows : List.Forall₂ (fun r e => LegacyEntry.ofRow r = some e) d.rows old.entries) :
    Gives rebuildDirents () (fun c' => ∃ d', c'.Holds storeIndexes version (tablesOf i d' k s) ∧
      CurrentDirents old d') c := by
  have hother : tablesOf i d k s "dirents_v3" = none := rfl
  refine Gives.bind (createTable_gives (t := direntsTable) h hother ⟨rfl, rfl⟩ (by decide)
    false).mapError fun c1 h1 => ?_
  have hsource : Function.update (tablesOf i d k s) "dirents_v3"
      (some { direntsTable.bare with rows := [] }) "dirents" = some d := rfl
  refine Gives.bind (select_gives h1 hsource hlayout.columns).mapError fun c2 h2 => ?_
  have hmember : ∀ r ∈ (d.rows.insertionSort (orderBy "parent_ino" "name")).map entryRow,
      ∃ e : LegacyEntry, r = Sql.row [("parent_ino", .integer e.parentIno), ("name", .blob e.name),
        ("child_ino", .integer e.childIno)] := by
    intro r hr
    obtain ⟨q, hq, rfl⟩ := List.mem_map.mp hr
    obtain ⟨e, -, he⟩ := Paired.mem_left hrows
      ((List.perm_insertionSort (orderBy "parent_ino" "name") d.rows).mem_iff.mp hq)
    obtain ⟨hparent, hname, hchild⟩ := legacyEntry_row he
    exact ⟨e, by rw [entryRow, hparent, hname, hchild]⟩
  have hexact : ∀ r ∈ (d.rows.insertionSort (orderBy "parent_ino" "name")).map entryRow,
      Exact r := by
    intro r hr
    obtain ⟨e, rfl⟩ := hmember r hr
    refine exact_row fun p hp engine column => ?_
    simp only [List.mem_cons, List.not_mem_nil, or_false] at hp
    rcases hp with rfl | rfl | rfl <;> rfl
  have hnull : ∀ r ∈ (d.rows.insertionSort (orderBy "parent_ino" "name")).map entryRow,
      r "id" = .null ∧ ∀ column ∈ direntsTable.columns, column ≠ "id" → r column ≠ .null := by
    intro r hr
    obtain ⟨e, rfl⟩ := hmember r hr
    simp [direntsTable]
  obtain ⟨new, hinsert, hnew, -⟩ := insertNumbered_gives (k := "id") h2 (Function.update_self ..)
    (by decide) hexact rfl rfl rfl hnull
  have hrebuilt := rebuild_gives hother (tablesOf_dirents i d k s) (by decide) (by decide) hinsert
  rw [update_dirents] at hrebuilt
  exact ⟨hrebuilt.1, _, hrebuilt.2, current_of_rebuilt hrows hnew⟩

private theorem direntColumns_gives (h : c.Holds storeIndexes version (tablesOf i d k s))
    (hlayout : Legacy.DirentsLayout version d)
    (hrows : List.Forall₂ (fun r e => LegacyEntry.ofRow r = some e) d.rows old.entries) :
    Gives direntColumns () (fun c' => ∃ d', c'.Holds storeIndexes version (tablesOf i d' k s) ∧
      CurrentDirents old d') c := by
  refine (tableHasColumn_gives h (tablesOf_dirents i d k s) "id").bind fun c1 h1 => ?_
  by_cases hid : "id" ∈ d.columns
  · rw [if_pos (by simpa using hid)]
    exact ⟨rfl, d, h1, current_of_id hlayout hrows hid⟩
  · rw [if_neg (by simpa using hid)]
    exact rebuildDirents_gives h1 hlayout hrows

/-- Names are unique in a directory, so the unique index can be made. -/
private theorem CurrentDirents.unique (h : CurrentDirents old t) (hold : old.Valid) :
    (t.rows.filterMap (keyOf ["parent_ino", "name"])).Nodup := by
  obtain ⟨es, hes, hperm⟩ := h.rows
  have hkey : t.rows.filterMap (keyOf ["parent_ino", "name"]) =
      t.rows.map fun r => [r "parent_ino", r "name"] := by
    rw [← List.filterMap_eq_map]
    refine List.filterMap_congr fun r hr => ?_
    obtain ⟨e, -, he⟩ := Paired.mem_left hes hr
    obtain ⟨hparent, hname, -⟩ := legacyEntry_row he
    simp [keyOf, hparent, hname]
  have hvalues : t.rows.map (fun r => [r "parent_ino", r "name"]) =
      (es.map fun e => (e.parentIno, e.name)).map fun p => [.integer p.1, .blob p.2] := by
    rw [List.map_map]
    refine Paired.map_eq hes fun r e he => ?_
    obtain ⟨hparent, hname, -⟩ := legacyEntry_row he
    rw [hparent, hname]
    rfl
  rw [hkey, hvalues]
  refine ((hperm.map _).nodup_iff.mpr hold.names).map fun a b hab => ?_
  simpa [Prod.ext_iff] using hab

private theorem toVersion3_gives (h : c.Holds storeIndexes version (tablesOf i d k s))
    (hlayout : Legacy.DirentsLayout version d) (hold : old.Valid)
    (hrows : List.Forall₂ (fun r e => LegacyEntry.ofRow r = some e) d.rows old.entries) :
    Gives (toVersion3 version) () (fun c' => ∃ d',
      c'.Holds storeIndexes version (tablesOf i d' k s) ∧ CurrentDirents old d') c := by
  unfold toVersion3
  split
  · refine Gives.bind (direntColumns_gives h hlayout hrows) fun c1 hc1 => ?_
    obtain ⟨d', h1, hd'⟩ := hc1
    have hindex : ∀ index ∈ storeIndexes, ∀ c2 : Conn,
        c2.Holds storeIndexes version (tablesOf i d' k s) →
        Gives (sql (createIndex index)) ()
          (Conn.Holds · storeIndexes version (tablesOf i d' k s)) c2 := by
      have hnone : ∀ index ∈ storeIndexes, index.table = "dirents" ∧
          tablesOf i d' k s index.name = none ∧ (∀ column ∈ index.columns,
            column ∈ direntsTable.columns) ∧
          (index.unique = true → index.columns = ["parent_ino", "name"]) := by
        intro index hin
        simp only [storeIndexes, List.mem_cons, List.not_mem_nil, or_false] at hin
        rcases hin with rfl | rfl | rfl
        · exact ⟨rfl, rfl, by decide, fun _ => rfl⟩
        · exact ⟨rfl, rfl, by decide, nofun⟩
        · exact ⟨rfl, rfl, by decide, nofun⟩
      intro index hin c2 h2
      obtain ⟨htable, hname, hcolumns, hunique⟩ := hnone index hin
      refine (createIndex_gives h2 (htable ▸ tablesOf_dirents i d' k s) hname hin
        (fun column hcolumn => hd'.columns column (hcolumns column hcolumn)) fun hu => ?_).mapError
      rw [hunique hu]
      exact hd'.unique hold
    refine (hindex direntsName (by decide) c1 h1).bind fun c2 h2 => ?_
    refine (hindex direntsChild (by decide) c2 h2).bind fun c3 h3 => ?_
    obtain ⟨hok, h4⟩ := hindex direntsScan (by decide) c3 h3
    exact ⟨hok, d', h4, hd'⟩
  · next hversion =>
    exact ⟨rfl, d, h, current_of_id hlayout hrows (hlayout.stable (Int.not_lt.mp hversion))⟩

end Dirents

section Chunks

variable {c : Conn} {version : Int} {i d k s t : Table} {old : Legacy} {r : Row} {e : LegacyChunk}
  {engine : Engine}

private theorem chunkId_eq {ino chunkIndex : Nat} (hino : ino ≤ maxIno)
    (hindex : chunkIndex < maxChunks) :
    chunkId engine (.integer ino) (.integer chunkIndex) = .integer (chunkKey ino chunkIndex) := by
  have hnat : (BitVec.ofInt 64 ino <<< chunkBits ||| BitVec.ofInt 64 chunkIndex).toNat =
      ((ino <<< chunkBits) % u64Size) ||| chunkIndex := by
    simp only [maxIno, maxChunks] at hino hindex
    have hmod : ino % 18446744073709551616 = ino := Nat.mod_eq_of_lt (by omega)
    have hmod' : chunkIndex % 18446744073709551616 = chunkIndex := Nat.mod_eq_of_lt (by omega)
    simp [u64Size, hmod, hmod']
  have hasI64 : ∀ n : Nat, (if 2 * n < 2 ^ 64 then (n : Int) else n - (2 ^ 64 : Nat)) =
      asI64 n := by
    intro n
    unfold asI64
    simp only [u64Size]
    split <;> split <;> omega
  rw [chunkId, BitVec.toInt_eq_toNat_cond, hnat, hasI64]
  rfl

private theorem legacyChunk_row (h : LegacyChunk.ofRow r = some e) :
    r "ino" = .integer e.ino ∧ r "chunk_index" = .integer e.chunkIndex ∧
      r "data" = .blob e.data := by
  simp only [LegacyChunk.ofRow, Option.bind_eq_bind, Option.bind_eq_some_iff,
    Option.some.injEq] at h
  obtain ⟨ino, hino, chunkIndex, hindex, data, hdata, rfl⟩ := h
  exact ⟨nat?_eq_some.mp hino, nat?_eq_some.mp hindex, blob?_eq_some.mp hdata⟩

/-- `file_chunks` in the current layout, with the older chunks. -/
structure CurrentChunks (old : Legacy) (t : Table) : Prop where
  columns : ∀ column ∈ fileChunksTable.columns, column ∈ t.columns
  rows : ∃ es, List.Forall₂ (fun r e => r "id" = .integer e.row.1 ∧ r "data" = .blob e.row.2)
    t.rows es ∧ es.Perm old.chunks

theorem CurrentChunks.chunks (h : CurrentChunks old t) :
    ((t.rows.map ChunkRow.ofRow).map fun row => (row.id, row.data)).Perm
      (old.chunks.map LegacyChunk.row) := by
  obtain ⟨es, hes, hperm⟩ := h.rows
  rw [List.map_map, Paired.map_eq (g := LegacyChunk.row) hes]
  · exact hperm.map _
  · rintro r e ⟨hid, hdata⟩
    simp [ChunkRow.ofRow, integer, hid, hdata, Value.blob?]

private def chunkRow (e : LegacyChunk) : Row :=
  Sql.row [("id", .integer e.row.1), ("data", .blob e.row.2)]

private theorem none_tooLarge (engine : Engine) (hold : old.Valid)
    (hrows : List.Forall₂ (fun r e => LegacyChunk.ofRow r = some e) k.rows old.chunks) :
    k.rows.countP (tooLarge engine) = 0 := by
  refine List.countP_eq_zero.mpr fun r hr => ?_
  obtain ⟨e, he, hre⟩ := Paired.mem_left hrows hr
  obtain ⟨hi, hindex, -⟩ := legacyChunk_row hre
  have hmax := hold.owner_le he
  have hlt := hold.indexes e he
  simp only [tooLarge, hi, hindex, Engine.ge, Engine.gt]
  simp only [Bool.or_eq_true, decide_eq_true_eq]
  omega

private theorem all_owned (engine : Engine) (hold : old.Valid)
    (hinodes : ∀ o ∈ old.inodes, ∃ r ∈ i.rows, r "ino" = .integer o.ino)
    (hrows : List.Forall₂ (fun r e => LegacyChunk.ofRow r = some e) k.rows old.chunks) :
    k.rows.filter (fun r => i.rows.any fun i => engine.eq (r "ino") (i "ino")) = k.rows := by
  refine List.filter_eq_self.mpr fun r hr => ?_
  obtain ⟨e, he, hre⟩ := Paired.mem_left hrows hr
  obtain ⟨o, ho, hoe⟩ := hold.owners e he
  obtain ⟨q, hq, hqo⟩ := hinodes o ho
  rw [List.any_eq_true]
  refine ⟨q, hq, ?_⟩
  rw [hqo, (legacyChunk_row hre).1, hoe]
  exact decide_eq_true rfl

/-- The rows that are inserted are those of the older chunks, in another order. -/
private theorem rekeyed_rows (engine : Engine) (hold : old.Valid)
    (hrows : List.Forall₂ (fun r e => LegacyChunk.ofRow r = some e) k.rows old.chunks) :
    ∃ es : List LegacyChunk, es.Perm old.chunks ∧
      (k.rows.insertionSort (orderBy "ino" "chunk_index")).map (rekeyedRow engine) =
        es.map chunkRow := by
  obtain ⟨es, hes, hperm⟩ := List.perm_comp_forall₂
    (List.perm_insertionSort (orderBy "ino" "chunk_index") k.rows) hrows
  have hmembers : List.Forall₂ (fun r e => LegacyChunk.ofRow r = some e ∧ e ∈ old.chunks)
      (k.rows.insertionSort (orderBy "ino" "chunk_index")) es :=
    (List.Forall₂.flip (Paired.and_left (P := (· ∈ old.chunks)) (List.Forall₂.flip hes)
      fun e he => hperm.mem_iff.mp he)).imp fun _ _ h => h.symm
  refine ⟨es, hperm, Paired.map_eq hmembers ?_⟩
  rintro r e ⟨hre, he⟩
  obtain ⟨hi, hindex, hdata⟩ := legacyChunk_row hre
  rw [rekeyedRow, hi, hindex, hdata, chunkId_eq (hold.owner_le he) (hold.indexes e he)]
  rfl

private theorem nodup_rekeyed (hold : old.Valid) {es : List LegacyChunk}
    (hperm : es.Perm old.chunks) : (es.map fun e => Value.integer e.row.1).Nodup := by
  rw [(hperm.map _).nodup_iff]
  refine hold.chunks.of_map.map_on fun a ha b hb hab => ?_
  refine List.inj_on_of_nodup_map hold.chunks ha hb (Prod.ext_iff.mpr ?_)
  exact (chunkKey_inj (hold.owner_le ha) (hold.owner_le hb) (hold.indexes a ha)
    (hold.indexes b hb)).mp (Value.integer.inj hab)

private theorem rekey_gives (h : c.Holds storeIndexes version (tablesOf i d k s)) (hold : old.Valid)
    (hcolumns : ∀ column ∈ ["ino", "chunk_index", "data"], column ∈ k.columns)
    (hino : "ino" ∈ i.columns)
    (hinodes : ∀ o ∈ old.inodes, ∃ r ∈ i.rows, r "ino" = .integer o.ino)
    (hrows : List.Forall₂ (fun r e => LegacyChunk.ofRow r = some e) k.rows old.chunks) :
    Gives rekeyFileChunks () (fun c' => ∃ k', c'.Holds storeIndexes version (tablesOf i d k' s) ∧
      CurrentChunks old k') c := by
  have hother : tablesOf i d k s "file_chunks_v4" = none := rfl
  refine Gives.get (Gives.bind (select_gives h (tablesOf_chunks i d k s)
    fun column hcolumn => hcolumns column (by simp at hcolumn ⊢; tauto)).mapError fun c1 h1 => ?_)
  rw [none_tooLarge c.engine hold hrows, if_neg (Nat.lt_irrefl 0)]
  refine Gives.bind (createTable_gives (t := fileChunksTable) h1 hother ⟨rfl, rfl⟩ (by decide)
    false).mapError fun c2 h2 => ?_
  have hsource : Function.update (tablesOf i d k s) "file_chunks_v4"
      (some { fileChunksTable.bare with rows := [] }) "file_chunks" = some k := rfl
  have hsource' : Function.update (tablesOf i d k s) "file_chunks_v4"
      (some { fileChunksTable.bare with rows := [] }) "inodes" = some i := rfl
  refine Gives.bind (select_gives h2 hsource hcolumns).mapError fun c3 h3 => ?_
  refine Gives.bind (select_gives h3 hsource' (by simpa using hino)).mapError fun c4 h4 => ?_
  dsimp only
  obtain ⟨es, hperm, heq⟩ := rekeyed_rows c.engine hold hrows
  rw [all_owned c.engine hold hinodes hrows, heq]
  have hinsert := insertKeyed_gives (k := "id") (es.map chunkRow) h4 (Function.update_self ..)
    (by decide) ?_ rfl rfl ?_ ?_ ?_
  · have hrebuilt := rebuild_gives hother (tablesOf_chunks i d k s) (by decide) (by decide) hinsert
    rw [update_chunks] at hrebuilt
    refine ⟨hrebuilt.1, _, hrebuilt.2, fun _ h => h, es, List.forall₂_map_left_iff.mpr ?_, hperm⟩
    exact List.forall₂_same.mpr fun e _ => ⟨rfl, rfl⟩
  · intro r hr
    obtain ⟨e, -, rfl⟩ := List.mem_map.mp hr
    exact exact_row fun p hp engine column => by
      simp only [List.mem_cons, List.not_mem_nil, or_false] at hp
      rcases hp with rfl | rfl <;> rfl
  · intro r hr
    obtain ⟨e, -, rfl⟩ := List.mem_map.mp hr
    exact ⟨e.row.1, rfl⟩
  · change ((es.map chunkRow).map fun r : Row => r "id").Nodup
    rw [List.map_map]
    exact nodup_rekeyed hold hperm
  · intro r hr
    obtain ⟨e, -, rfl⟩ := List.mem_map.mp hr
    simp [fileChunksTable, Table.bare, chunkRow]

private theorem chunkColumns_gives (h : c.Holds storeIndexes version (tablesOf i d k s))
    (hold : old.Valid) (hlayout : (∀ column ∈ ["ino", "chunk_index", "data"], column ∈ k.columns) ∨
      k = { fileChunksTable.bare with rows := [] })
    (hino : "ino" ∈ i.columns)
    (hinodes : ∀ o ∈ old.inodes, ∃ r ∈ i.rows, r "ino" = .integer o.ino)
    (hrows : List.Forall₂ (fun r e => LegacyChunk.ofRow r = some e) k.rows old.chunks) :
    Gives chunkColumns () (fun c' => ∃ k', c'.Holds storeIndexes version (tablesOf i d k' s) ∧
      CurrentChunks old k') c := by
  refine (tableHasColumn_gives h (tablesOf_chunks i d k s) "chunk_index").bind fun c1 h1 => ?_
  rcases hlayout with hcolumns | rfl
  · rw [if_pos (by simpa using hcolumns "chunk_index" (by simp))]
    exact rekey_gives h1 hold hcolumns hino hinodes hrows
  · rw [if_neg (by simp [fileChunksTable])]
    have hnone : old.chunks = [] := List.forall₂_nil_left_iff.mp hrows
    exact ⟨rfl, _, h1, fun _ h => h, [], .nil, by rw [hnone]⟩

end Chunks

section Upgrade

variable {c : Conn} {version : Int} {i d k s : Table} {old : Legacy} {f : File}

private theorem toVersion4_gives (h : c.Holds storeIndexes version (tablesOf i d k s))
    (hold : old.Valid) (hversion : version < 4) (hi : SplitInodes old i)
    (hlayout : (∀ column ∈ ["ino", "chunk_index", "data"], column ∈ k.columns) ∨
      k = { fileChunksTable.bare with rows := [] })
    (hrows : List.Forall₂ (fun r e => LegacyChunk.ofRow r = some e) k.rows old.chunks) :
    Gives (toVersion4 version true) () (fun c' => ∃ k',
      c'.Holds storeIndexes version (tablesOf (mergedInodes c.engine i) d k' s) ∧
        CurrentChunks old k') c := by
  unfold toVersion4
  rw [if_pos hversion]
  refine Gives.bind (merge_gives h hi hold) fun c1 h1 => ?_
  have hino : "ino" ∈ inodesTable.columns := by decide
  refine chunkColumns_gives h1 hold hlayout hino (fun o ho => ?_) hrows
  obtain ⟨r, hr, hro⟩ := Paired.mem_left (List.Forall₂.flip hi.rows) ho
  refine ⟨mergedRow c.engine r, List.mem_map_of_mem hr, ?_⟩
  simpa [mergedRow] using (legacyInode_row hro.inode).ino

/-- A connection to a file of the current version that holds the older store. -/
structure Upgraded (old : Legacy) (c : Conn) (engine : Engine) (i d k s : Table) : Prop where
  version : c.file.userVersion = schemaVersion
  tables : ∀ name, (c.file.tables name).map Table.bare = tablesOf (mergedInodes engine i) d k s name
  plain : ∀ name t, tablesOf (mergedInodes engine i) d k s name = some t → t.Plain
  works : c.engine.Works
  inodes : SplitInodes old i
  dirents : CurrentDirents old d
  chunks : CurrentChunks old k

private theorem migrateSteps_gives (h : c.Holds storeIndexes version (tablesOf i d k s))
    (hold : old.Valid) (hversion : version < 4) (hi : Legacy.InodesLayout version i)
    (hd : Legacy.DirentsLayout version d)
    (hk : (∀ column ∈ ["ino", "chunk_index", "data"], column ∈ k.columns) ∨
      k = { fileChunksTable.bare with rows := [] })
    (hinodes : List.Forall₂ (fun r o => LegacyInode.ofRow r = some o) i.rows old.inodes)
    (hentries : List.Forall₂ (fun r e => LegacyEntry.ofRow r = some e) d.rows old.entries)
    (hchunks : List.Forall₂ (fun r e => LegacyChunk.ofRow r = some e) k.rows old.chunks) :
    Gives (migrateSteps version) () (fun c' => (∃ engine i' d' k',
      Upgraded old c' engine i' d' k' s) ∧ c'.saved = none) c := by
  refine wp_mono (transaction_gives (P := fun c' => ∃ engine i' d' k',
    Upgraded old c' engine i' d' k' s) ?_) ?_
  rotate_left
  · rintro r _ ⟨hr, c₁, ⟨engine, i', d', k', hc₁⟩, rfl⟩
    exact ⟨hr, ⟨engine, i', d', k', hc₁.version, hc₁.tables, hc₁.plain, hc₁.works, hc₁.inodes,
      hc₁.dirents, hc₁.chunks⟩, rfl⟩
  have h0 : Conn.Holds { c with saved := some c.file } storeIndexes version (tablesOf i d k s) :=
    ⟨h.version, h.data, h.plain, h.indexes, h.unenforced, h.works⟩
  refine Gives.bind (tableHasColumn_gives h0 (tablesOf_inodes i d k s) "mtime_ns") fun c1 h1 => ?_
  rw [decide_eq_false hi.split]
  refine Gives.bind (toVersion1_gives h1 hi hinodes) fun c2 hc2 => ?_
  obtain ⟨i', h2, hi'⟩ := hc2
  refine Gives.bind (a := ()) (R := (Conn.Holds · storeIndexes version (tablesOf i' d k s))) ?_
    fun c3 h3 => ?_
  · unfold toVersion2
    split
    · refine (createIndex_gives h2 (tablesOf_dirents i' d k s) rfl (by decide) ?_
        fun hunique => ?_).mapError
      · intro column hcolumn
        rw [List.mem_singleton.mp hcolumn]
        exact hd.columns "child_ino" (by simp)
      · cases hunique
    · exact ⟨rfl, h2⟩
  · refine Gives.bind (toVersion3_gives h3 hd hold hentries) fun c4 hc4 => ?_
    obtain ⟨d', h4, hd'⟩ := hc4
    refine Gives.bind (toVersion4_gives h4 hold hversion hi' hk hchunks) fun c5 hc5 => ?_
    obtain ⟨k', h5, hk'⟩ := hc5
    refine Gives.bind (setUserVersion_gives h5 schemaVersion).mapError fun c6 h6 => ?_
    obtain ⟨hok, h7⟩ := (commit_gives h6).mapError (f := dbError)
    exact ⟨hok, c4.engine, i', d', k', h7.version, h7.data, h7.plain, h7.works, hi', hd', hk'⟩

/-- The table of `f`, or the empty one that is created for it. -/
def tableOr (f : File) (name : String) (t : Table) : Table :=
  ((f.tables name).getD { t with rows := [] }).bare

theorem rowsOf_tableOr (f : File) (name : String) (t : Table) :
    (tableOr f name t).rows = f.rowsOf name := by
  unfold tableOr File.rowsOf
  cases f.tables name <;> rfl

private theorem plain_tableOr (hlayout : Legacy.Layout f) (name : String) {t : Table}
    (ht : t.Plain) :
    (tableOr f name t).Plain := by
  unfold tableOr
  rcases htable : f.tables name with _ | t'
  · exact ⟨ht.view, ht.capitals⟩
  · have hplain := hlayout.plain name t' htable
    exact ⟨hplain.view, hplain.capitals⟩

private theorem created_holds {engine : Engine} (hworks : engine.Works) (hlayout : Legacy.Layout f)
    (hi : f.tables "inodes" = some i) :
    Conn.Holds ⟨withCreated f currentTables, false, none, engine⟩ storeIndexes f.userVersion
      (tablesOf i.bare (tableOr f "dirents" direntsTable) (tableOr f "file_chunks" fileChunksTable)
        (tableOr f "symlink_targets" symlinkTargetsTable)) := by
  have hplain : i.bare.Plain := by
    have hi' := hlayout.plain "inodes" i hi
    exact ⟨hi'.view, hi'.capitals⟩
  refine ⟨rfl, fun name => ?_, plain_tablesOf hplain (plain_tableOr hlayout _ ⟨rfl, rfl⟩)
    (plain_tableOr hlayout _ ⟨rfl, rfl⟩) (plain_tableOr hlayout _ ⟨rfl, rfl⟩), hlayout.indexes, rfl,
    hworks⟩
  change ((f.tables name).or ((currentTables.lookup name).map fun t => { t with rows := [] })).map
    Table.bare = _
  have hcreated : ∀ t : Table, ((f.tables name).or (some { t with rows := [] })).map Table.bare =
      some (tableOr f name t) := by
    intro t
    unfold tableOr
    cases f.tables name <;> rfl
  unfold tablesOf
  split
  · next hname =>
    subst hname
    rw [hi]
    rfl
  · split
    · next hname =>
      subst hname
      exact hcreated direntsTable
    · split
      · next hname =>
        subst hname
        exact hcreated fileChunksTable
      · split
        · next hname =>
          subst hname
          exact hcreated symlinkTargetsTable
        · next h1 h2 h3 h4 =>
          have hnone : f.tables name = none := by
            by_contra hsome
            have hin := hlayout.tables name (Option.isSome_iff_ne_none.mpr hsome)
            simp [h1, h2, h3, h4] at hin
          have hlookup : currentTables.lookup name = none := by
            rw [List.lookup_eq_none_iff]
            simp [currentTables, h1, h2, h3, h4]
          rw [hnone, hlookup]
          rfl

theorem upgrade_gives {engine : Engine} (hworks : engine.Works) (hlayout : Legacy.Layout f)
    (hread : Legacy.ofFile f = some old) (hold : old.Valid) :
    Gives (do createTables; migrate : Opening Unit) () (fun c' => ∃ engine' i d k,
      Upgraded old c' engine' i d k (tableOr f "symlink_targets" symlinkTargetsTable))
      ⟨f, true, none, engine⟩ := by
  obtain ⟨i, hi, hinodes⟩ := hlayout.inodes
  have hholds := created_holds hworks hlayout hi
  simp only [Legacy.ofFile, Option.bind_eq_bind, Option.bind_eq_some_iff,
    Option.some.injEq] at hread
  obtain ⟨inodes, hri, entries, hre, chunks, hrc, targets, hrt, rfl⟩ := hread
  rw [Paired.mapM_eq_some_iff] at hri hre hrc
  have hnames : ∀ table ∈ currentTables, ∀ index ∈ storeIndexes, index.name ≠ table.1 := by decide
  have hnoindex : ∀ table ∈ currentTables, f.hasIndex table.1 = false := by
    intro table htable
    rw [File.hasIndex, List.any_eq_false]
    intro index hindex
    simpa using hnames table htable index (hlayout.indexes index hindex)
  have hcreate : createTables ⟨f, true, none, engine⟩ =
      (.ok (), ⟨withCreated f currentTables, true, none, engine⟩) := createAll_eq hworks hnoindex
  have hd : Legacy.DirentsLayout f.userVersion (tableOr f "dirents" direntsTable) := by
    unfold tableOr
    rcases htable : f.tables "dirents" with _ | t
    · refine ⟨by decide, fun _ => (by decide : "id" ∈ direntsTable.columns), ?_⟩
      intro _ r hr
      cases hr
    · have hlayout := hlayout.dirents t htable
      exact ⟨hlayout.columns, hlayout.stable, hlayout.ids⟩
  have hk : (∀ column ∈ ["ino", "chunk_index", "data"],
      column ∈ (tableOr f "file_chunks" fileChunksTable).columns) ∨
      tableOr f "file_chunks" fileChunksTable = { fileChunksTable.bare with rows := [] } := by
    unfold tableOr
    rcases htable : f.tables "file_chunks" with _ | t
    · exact .inr rfl
    · exact .inl (hlayout.chunks t htable)
  rw [← rowsOf_tableOr f "dirents" direntsTable] at hre
  rw [← rowsOf_tableOr f "file_chunks" fileChunksTable] at hrc
  rw [File.rowsOf, hi] at hri
  have hsteps := migrateSteps_gives hholds hold (show f.userVersion < 4 from hlayout.version.2)
    ⟨hinodes.columns, hinodes.split, hinodes.nsec, hinodes.seconds, hinodes.fractions⟩ hd
      hk hri hre hrc
  refine Gives.bind (R := (· = ⟨withCreated f currentTables, true, none, engine⟩))
    ⟨congrArg Prod.fst hcreate, congrArg Prod.snd hcreate⟩ ?_
  rintro _ rfl
  have hversion := hlayout.version.2
  unfold Gives migrate
  rw [wp_get_bind]
  dsimp only
  rw [if_neg (show ¬(withCreated f currentTables).userVersion > schemaVersion from
      Int.not_lt.mpr (Int.le_of_lt hversion)),
    if_neg (show (withCreated f currentTables).userVersion ≠
      schemaVersion from Int.ne_of_lt hversion),
    setForeignKeys_bind]
  have hattempt : wp (attempt (migrateSteps f.userVersion)) (fun r c' => r = .ok (.ok ()) ∧
      ∃ engine' i d k, Upgraded ⟨inodes, entries, chunks, targets⟩ c' engine' i d k
        (tableOr f "symlink_targets" symlinkTargetsTable))
      ⟨withCreated f currentTables, false, none, engine⟩ :=
    ⟨congrArg Except.ok hsteps.1, hsteps.2.1⟩
  refine wp_bind hattempt ?_ ?_
  · rintro _ c2 ⟨⟨⟩, engine', i', d', k', hupgraded⟩
    rw [setForeignKeys_bind]
    have hfile : (c2.enforce true).file = c2.file := c2.enforce_file true
    have hengine : (c2.enforce true).engine = c2.engine := c2.enforce_engine true
    exact ⟨rfl, engine', i', d', k', hfile ▸ hupgraded.version, hfile ▸ hupgraded.tables,
      hupgraded.plain, hengine ▸ hupgraded.works, hupgraded.inodes, hupgraded.dirents,
      hupgraded.chunks⟩
  · rintro _ _ ⟨⟨⟩, -⟩

end Upgrade

end Migration

end VibeDbfs
