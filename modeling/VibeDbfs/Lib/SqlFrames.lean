import VibeDbfs.Lib.SqlLaws

/-!
The rows that a successful statement leaves alone, and rules to put such statements together. A
view of the file that does not look at the tables a program writes is the same after it.
-/

set_option autoImplicit false
set_option relaxedAutoImplicit false

namespace VibeDbfs.Lib.Sql

open Prog

variable {ε ε' α β γ : Type} {f f' : File} {c c' : Conn} {name newName : String} {t : Table}

theorem File.rowsOf_of_find (h : f.tables name = some t) : f.rowsOf name = t.rows := by
  simp [File.rowsOf, h]

theorem File.rowsOf_setTable (f : File) (name : String) (t : Option Table) (n : String) :
    (f.setTable name t).rowsOf n = if n = name then (t.map Table.rows).getD [] else f.rowsOf n := by
  change ((Function.update f.tables name t n).map Table.rows).getD [] = _
  split
  · next h => rw [h, Function.update_self]
  · next h => rw [Function.update_of_ne h, File.rowsOf]

section Statements

theorem findTable_ok {c c' : Conn} (h : findTable name c = (.ok t, c')) :
    c.file.tables name = some t ∧ c' = c := by
  rcases hfind : c.file.tables name with _ | t'
  · unfold findTable at h
    rw [bind_ok (show Prog.get c = (.ok c, c) from rfl)] at h
    simp only [hfind] at h
    cases h
  · rw [findTable_eq hfind] at h
    cases h
    exact ⟨rfl, rfl⟩

theorem findBase_ok {problem : String} (h : findBase name problem c = (.ok t, c')) :
    c.file.tables name = some t ∧ c' = c := by
  obtain ⟨t₁, c₁, hfind, hbase⟩ := bind_eq_ok.mp h
  obtain ⟨htable, rfl⟩ := findTable_ok hfind
  split at hbase
  · cases hbase
  · cases hbase
    exact ⟨htable, rfl⟩

theorem change_ok {g : File → File} {u : Unit} (h : change g c = (.ok u, c')) :
    c' = { c with file := g c.file } := by
  unfold change at h
  rw [get_bind] at h
  rcases hfault : c.engine.fault c.file (g c.file) with _ | e
  · rw [hfault] at h
    cases h
    rfl
  · rw [hfault] at h
    cases h

theorem createTable_ok {ifNotExists : Bool} (h : createTable name t ifNotExists c = (.ok (), c')) :
    c'.foreignKeys = c.foreignKeys ∧ (∀ n, c'.file.rowsOf n = c.file.rowsOf n) ∧
      (ifNotExists = false → c'.file.tables name = some { t with rows := [] }) := by
  change (if (c.file.tables name).isSome then _ else _ : Statement Unit) c = _ at h
  split at h
  · split at h
    · next hskip =>
      cases h
      exact ⟨rfl, fun _ => rfl, fun hno => by rw [hno] at hskip; cases hskip⟩
    · cases h
  · next hnone =>
    rw [Bool.not_eq_true, Option.isSome_eq_false_iff, Option.isNone_iff_eq_none] at hnone
    split at h
    · cases h
    · rw [change_ok h]
      refine ⟨rfl, fun n => ?_, fun _ => ?_⟩
      · change (c.file.setTable name _).rowsOf n = _
        rw [File.rowsOf_setTable]
        split
        · next hn =>
          rw [hn, File.rowsOf, hnone]
          rfl
        · rfl
      · exact Function.update_self name _ _

theorem change_engine {g : File → File} {u : Unit} (h : change g c = (.ok u, c')) :
    c'.engine = c.engine := by rw [change_ok h]

theorem createTable_engine {ifNotExists : Bool}
    (h : createTable name t ifNotExists c = (.ok (), c')) : c'.engine = c.engine := by
  change (if (c.file.tables name).isSome then _ else _ : Statement Unit) c = _ at h
  split at h
  · split at h
    · cases h
      rfl
    · cases h
  · split at h
    · cases h
    · exact change_engine h

theorem select_ok {columns : List String} {rows : List Row}
    (h : select name columns c = (.ok rows, c')) : rows = c.file.rowsOf name ∧ c' = c := by
  obtain ⟨t, c₁, hfind, hrows⟩ := bind_eq_ok.mp h
  obtain ⟨htable, rfl⟩ := findTable_ok hfind
  split at hrows
  · obtain ⟨u, c₂, hread, hend⟩ := bind_eq_ok.mp hrows
    obtain rfl : c₂ = c₁ := change_ok hread
    cases hend
    exact ⟨(File.rowsOf_of_find htable).symm, rfl⟩
  · cases hrows

theorem dropTable_ok (hoff : c.foreignKeys = false) (h : dropTable name c = (.ok (), c')) :
    c'.foreignKeys = false ∧ ∀ n, n ≠ name → c'.file.rowsOf n = c.file.rowsOf n := by
  obtain ⟨t, c₁, hfind, hrest⟩ := bind_eq_ok.mp h
  obtain ⟨-, rfl⟩ := findBase_ok hfind
  rw [get_bind] at hrest
  rw [change_ok hrest, hoff]
  refine ⟨rfl, fun n hn => ?_⟩
  change (c₁.file.setTable name none).rowsOf n = _
  rw [File.rowsOf_setTable, if_neg hn]

theorem retarget_rows (f : File) (old new n : String) :
    File.rowsOf { f with tables := fun n => (f.tables n).map (retarget old new) } n =
      f.rowsOf n := by
  change (((f.tables n).map (retarget old new)).map Table.rows).getD [] = _
  rw [Option.map_map]
  rfl

theorem renameTable_ok (h : renameTable name newName c = (.ok (), c')) :
    c'.foreignKeys = c.foreignKeys ∧ c'.file.rowsOf newName = c.file.rowsOf name ∧
      ∀ n, n ≠ name → n ≠ newName → c'.file.rowsOf n = c.file.rowsOf n := by
  obtain ⟨t, c₁, hfind, hrest⟩ := bind_eq_ok.mp h
  obtain ⟨htable, rfl⟩ := findBase_ok hfind
  rw [get_bind] at hrest
  split at hrest
  · cases hrest
  · rw [change_ok hrest]
    refine ⟨rfl, ?_, fun n hn hnew => ?_⟩
    · rw [File.rowsOf_of_find htable]
      refine (retarget_rows _ name newName newName).trans ?_
      change ((c₁.file.setTable name none).setTable newName (some t)).rowsOf newName = _
      rw [File.rowsOf_setTable, if_pos rfl]
      rfl
    · refine (retarget_rows _ name newName n).trans ?_
      change ((c₁.file.setTable name none).setTable newName (some t)).rowsOf n = _
      rw [File.rowsOf_setTable, if_neg hnew, File.rowsOf_setTable, if_neg hn]

theorem addColumn_ok {column : String} {value : Value}
    (h : addColumn name column value c = (.ok (), c')) :
    c'.foreignKeys = c.foreignKeys ∧
      c'.file.rowsOf name = (c.file.rowsOf name).map fun r => Function.update r column value := by
  obtain ⟨t, c₁, hfind, hrest⟩ := bind_eq_ok.mp h
  obtain ⟨htable, rfl⟩ := findBase_ok hfind
  split at hrest
  · cases hrest
  · rw [change_ok hrest, File.rowsOf_of_find htable]
    refine ⟨rfl, ?_⟩
    change (c₁.file.setTable name _).rowsOf name = _
    rw [File.rowsOf_setTable, if_pos rfl]
    rfl

theorem createIndex_ok {index : Index} (h : createIndex index c = (.ok (), c')) :
    c'.foreignKeys = c.foreignKeys ∧ ∀ n, c'.file.rowsOf n = c.file.rowsOf n := by
  obtain ⟨t, c₁, hfind, hrest⟩ := bind_eq_ok.mp h
  obtain ⟨-, rfl⟩ := findBase_ok hfind
  rw [get_bind] at hrest
  split at hrest
  · cases hrest
  · split at hrest
    · cases hrest
      exact ⟨rfl, fun _ => rfl⟩
    · split at hrest
      · cases hrest
      · split at hrest
        · cases hrest
        · rw [change_ok hrest]
          exact ⟨rfl, fun _ => rfl⟩

theorem insertRows_ok {engine : Engine} {enforce : Bool} {k : String} {rows : List Row} {t' : Table}
    (hrowid : t.rowid = some k) (hids : ∀ r ∈ rows, engine.keep k (r k) ≠ .null)
    (h : f.insertRows engine enforce name t rows = .ok t') :
    t'.rows = t.rows ++ rows.map fun r column => engine.keep column (r column) := by
  induction rows generalizing t with
  | nil =>
    cases h
    rw [List.map_nil, List.append_nil]
  | cons r rows ih =>
    unfold File.insertRows at h
    rw [List.foldlM_cons] at h
    have hnumbered := numbered_of_ne_null (r := fun column => engine.keep column (r column)) hrowid
      (hids r List.mem_cons_self)
    rcases hrow : f.insertRow engine enforce name t r with e | t₁
    · rw [hrow] at h
      cases h
    · rw [hrow] at h
      have hone : t₁ = { t with
          rows := t.rows ++ [fun column => engine.keep column (r column)] } := by
        unfold File.insertRow at hrow
        dsimp only at hrow
        rw [hnumbered] at hrow
        split_ifs at hrow
        cases hrow
        rfl
      have hrest : t'.rows = t₁.rows ++ rows.map fun r column => engine.keep column (r column) :=
        ih (hone ▸ hrowid) (fun r' hr' => hids r' (List.mem_cons_of_mem _ hr')) h
      rw [hrest, hone, List.append_assoc]
      rfl

theorem insertInto_ok {rows : List Row} (h : insertInto name rows c = (.ok (), c')) :
    c'.foreignKeys = c.foreignKeys ∧ (∀ n, n ≠ name → c'.file.rowsOf n = c.file.rowsOf n) ∧
      ∃ t t', c.file.tables name = some t ∧
        c.file.insertRows c.engine c.foreignKeys name t rows = .ok t' ∧
        c'.file.rowsOf name = t'.rows := by
  obtain ⟨t, c₁, hfind, hrest⟩ := bind_eq_ok.mp h
  obtain ⟨htable, rfl⟩ := findBase_ok hfind
  rw [get_bind] at hrest
  rcases hinsert : c₁.file.insertRows c₁.engine c₁.foreignKeys name t rows with e | t'
  · simp only [hinsert] at hrest
    cases hrest
  · simp only [hinsert] at hrest
    rw [change_ok hrest]
    refine ⟨rfl, fun n hn => ?_, t, t', htable, hinsert, ?_⟩
    · change (c₁.file.setTable name _).rowsOf n = _
      rw [File.rowsOf_setTable, if_neg hn]
    · change (c₁.file.setTable name _).rowsOf name = _
      rw [File.rowsOf_setTable, if_pos rfl]
      rfl

end Statements

section Frames

/-- The view does not look at the rows of the tables `names`. -/
def Blind (names : List String) (view : File → β) : Prop :=
  ∀ f f' : File, (∀ n, n ∉ names → f'.rowsOf n = f.rowsOf n) → view f' = view f

/-- Where foreign keys are off and the program succeeds, they stay off and the view is the same. -/
structure Keeps (view : File → β) (x : Prog Conn ε α) : Prop where
  ends : ∀ {c a c'}, x c = (.ok a, c') → c.foreignKeys = false →
    c'.foreignKeys = false ∧ view c'.file = view c.file

variable {view : File → β}

theorem Keeps.pure (a : α) : Keeps view (Pure.pure a : Prog Conn ε α) := by
  constructor
  intro c b c' h hoff
  cases h
  exact ⟨hoff, rfl⟩

theorem Keeps.throw (e : ε) : Keeps view (Prog.throw e : Prog Conn ε α) := by
  constructor
  intro c b c' h
  cases h

theorem Keeps.get : Keeps view (Prog.get : Prog Conn ε Conn) := by
  constructor
  intro c b c' h hoff
  cases h
  exact ⟨hoff, rfl⟩

theorem Keeps.bind {x : Prog Conn ε α} {g : α → Prog Conn ε γ} (hx : Keeps view x)
    (hg : ∀ a, Keeps view (g a)) : Keeps view (x >>= g) := by
  constructor
  intro c b c' h hoff
  obtain ⟨a, c₁, hfirst, hsecond⟩ := bind_eq_ok.mp h
  obtain ⟨hoff₁, hview₁⟩ := hx.ends hfirst hoff
  obtain ⟨hoff', hview'⟩ := (hg a).ends hsecond hoff₁
  exact ⟨hoff', hview'.trans hview₁⟩

theorem Keeps.mapError {g : ε → ε'} {x : Prog Conn ε α} (h : Keeps view x) :
    Keeps view (mapError g x) := by
  constructor
  intro c a c' hrun hoff
  rcases hx : x c with ⟨r, c₁⟩
  unfold Prog.mapError at hrun
  rw [hx] at hrun
  cases r with
  | error e => cases hrun
  | ok a₁ =>
    cases hrun
    exact h.ends hx hoff

theorem Keeps.each {g : α → Prog Conn ε Unit} {xs : List α} (hg : ∀ a ∈ xs, Keeps view (g a)) :
    Keeps view (each g xs) := by
  induction xs with
  | nil => exact .pure ()
  | cons x xs ih =>
    exact (hg x List.mem_cons_self).bind fun _ => ih fun a ha => hg a (List.mem_cons_of_mem _ ha)

theorem Keeps.ite {p : Prop} [Decidable p] {x y : Prog Conn ε α} (hx : Keeps view x)
    (hy : Keeps view y) : Keeps view (if p then x else y) := by
  split
  · exact hx
  · exact hy

theorem Keeps.createTable (hview : Blind [] view) (name : String) (t : Table) (ifNotExists : Bool) :
    Keeps view (createTable name t ifNotExists) := by
  constructor
  intro c a c' h hoff
  obtain ⟨hkeys, hrows, -⟩ := createTable_ok h
  exact ⟨hkeys.trans hoff, hview _ _ fun n _ => hrows n⟩

theorem Keeps.select (name : String) (columns : List String) :
    Keeps view (select name columns) := by
  constructor
  intro c rows c' h hoff
  obtain ⟨-, rfl⟩ := select_ok h
  exact ⟨hoff, rfl⟩

theorem Keeps.insertInto (hview : Blind [name] view) (rows : List Row) :
    Keeps view (insertInto name rows) := by
  constructor
  intro c a c' h hoff
  obtain ⟨hkeys, hrows, -⟩ := insertInto_ok h
  exact ⟨hkeys.trans hoff, hview _ _ fun n hn => hrows n fun heq => hn
    (heq ▸ List.mem_singleton_self n)⟩

theorem Keeps.dropTable (hview : Blind [name] view) : Keeps view (dropTable name) := by
  constructor
  intro c a c' h hoff
  obtain ⟨hoff', hrows⟩ := dropTable_ok hoff h
  exact ⟨hoff', hview _ _ fun n hn => hrows n fun heq => hn (heq ▸ List.mem_singleton_self n)⟩

theorem Keeps.renameTable (hview : Blind [name, newName] view) :
    Keeps view (renameTable name newName) := by
  constructor
  intro c a c' h hoff
  obtain ⟨hkeys, -, hrows⟩ := renameTable_ok h
  refine ⟨hkeys.trans hoff, hview _ _ fun n hn => ?_⟩
  simp only [List.mem_cons, List.not_mem_nil, or_false, not_or] at hn
  exact hrows n hn.1 hn.2

theorem Keeps.createIndex (hview : Blind [] view) (index : Index) :
    Keeps view (createIndex index) := by
  constructor
  intro c a c' h hoff
  obtain ⟨hkeys, hrows⟩ := createIndex_ok h
  exact ⟨hkeys.trans hoff, hview _ _ fun n _ => hrows n⟩

theorem Keeps.setUserVersion (hview : Blind [] view) (version : Int) :
    Keeps view (setUserVersion version) := by
  constructor
  intro c a c' h hoff
  rw [change_ok h]
  exact ⟨hoff, hview _ _ fun _ _ => rfl⟩

theorem Keeps.commit : Keeps view commit := by
  constructor
  intro c a c' h hoff
  rw [change_ok h]
  exact ⟨hoff, rfl⟩

theorem transaction_ok {body : Prog Conn ε Unit} {u : Unit}
    (h : transaction body c = (.ok u, c')) :
    ∃ c₁, body { c with saved := some c.file } = (.ok (), c₁) ∧ c'.file = c₁.file ∧
      c'.foreignKeys = c₁.foreignKeys := by
  obtain ⟨_, c₀, hbegin, h⟩ := bind_eq_ok.mp h
  cases hbegin
  obtain ⟨r, c₁, hattempt, hend⟩ := bind_eq_ok.mp h
  rcases hbody : body { c with saved := some c.file } with ⟨r', c₂⟩
  unfold Prog.attempt at hattempt
  rw [hbody] at hattempt
  cases hattempt
  cases r' with
  | error e => cases hend
  | ok v =>
    cases hend
    exact ⟨c₂, rfl, rfl, rfl⟩

end Frames

end VibeDbfs.Lib.Sql
