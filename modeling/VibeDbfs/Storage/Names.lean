import VibeDbfs.Lib.Forest
import VibeDbfs.Storage.Tables

/-!
The directory structure of a store, apart from how the tables hold it: which inodes exist, their
link counts and the entries that name them. `Step` is everything a method can do to it.
-/

set_option autoImplicit false
set_option relaxedAutoImplicit false

namespace VibeDbfs

open Relation (ReflTransGen)

structure Names where
  kind : Nat → Option FileKind
  nlink : Nat → Nat
  entries : List Dirent

namespace Names

/-- An entry of directory `b` names directory `a`. -/
def Up (n : Names) (a b : Nat) : Prop :=
  n.kind a = some .directory ∧ ∃ d ∈ n.entries, d.childIno = a ∧ d.parentIno = b

/-- The entries form a tree of directories below inode 1. -/
structure Tree (n : Names) : Prop where
  root : n.kind 1 = some .directory
  distinct : (n.entries.map fun d => (d.parentIno, d.name)).Nodup
  parent : ∀ d ∈ n.entries, n.kind d.parentIno = some .directory
  child : ∀ d ∈ n.entries, (n.kind d.childIno).isSome
  rootUnnamed : ∀ d ∈ n.entries, d.childIno ≠ 1
  named : ∀ ino ≠ 1, n.kind ino = some .directory →
    n.entries.countP (fun d => d.childIno = ino) = 1
  rooted : ∀ ino, n.kind ino = some .directory → ReflTransGen n.Up ino 1

def linkCount (n : Names) (ino : Nat) : Nat :=
  if n.kind ino = some .directory then
    2 + n.entries.countP fun d => d.parentIno = ino ∧ n.kind d.childIno = some .directory
  else n.entries.countP fun d => d.childIno = ino

def Exact (n : Names) : Prop := ∀ ino, (n.kind ino).isSome → n.nlink ino = n.linkCount ino

/-- No entry has the name `name` in directory `parent`. -/
def Free (entries : List Dirent) (parent : Nat) (name : Name) : Prop :=
  ∀ d ∈ entries, (d.parentIno, d.name) ≠ (parent, name)

inductive Step (n n' : Names) : Prop
  | create (d : Dirent) (k : FileKind)
      (hnew : n.kind d.childIno = none)
      (hparent : n.kind d.parentIno = some .directory)
      (hfree : Free n.entries d.parentIno d.name)
      (hkind : ∀ j, n'.kind j = if j = d.childIno then some k else n.kind j)
      (hnlink : ∀ j, n'.nlink j =
        if j = d.childIno then (if k = .directory then 2 else 1)
        else if k = .directory ∧ j = d.parentIno then n.nlink j + 1
        else n.nlink j)
      (hentries : n'.entries.Perm (d :: n.entries))
  | link (d : Dirent)
      (hchild : (n.kind d.childIno).isSome)
      (hfile : n.kind d.childIno ≠ some .directory)
      (hparent : n.kind d.parentIno = some .directory)
      (hfree : Free n.entries d.parentIno d.name)
      (hkind : ∀ j, n'.kind j = n.kind j)
      (hnlink : ∀ j, n'.nlink j = if j = d.childIno then n.nlink j + 1 else n.nlink j)
      (hentries : n'.entries.Perm (d :: n.entries))
  | drop (d : Dirent)
      (hfile : n.kind d.childIno ≠ some .directory)
      (hkind : ∀ j, n'.kind j = n.kind j)
      (hnlink : ∀ j, n'.nlink j = if j = d.childIno then n.nlink j - 1 else n.nlink j)
      (hentries : n.entries.Perm (d :: n'.entries))
  | erase (d : Dirent)
      (hunnamed : ∀ e ∈ n'.entries, e.childIno ≠ d.childIno)
      (hempty : ∀ e ∈ n.entries, e.parentIno ≠ d.childIno)
      (hkind : ∀ j, n'.kind j = if j = d.childIno then none else n.kind j)
      (hnlink : ∀ j, j ≠ d.childIno → n'.nlink j =
        if n.kind d.childIno = some .directory ∧ j = d.parentIno then n.nlink j - 1
        else n.nlink j)
      (hentries : n.entries.Perm (d :: n'.entries))
  | sweep (ino : Nat)
      (hfile : n.kind ino ≠ some .directory)
      (hunnamed : ∀ e ∈ n.entries, e.childIno ≠ ino)
      (hkind : ∀ j, n'.kind j = if j = ino then none else n.kind j)
      (hnlink : ∀ j, j ≠ ino → n'.nlink j = n.nlink j)
      (hentries : n'.entries = n.entries)
  | move (d : Dirent) (newParent : Nat) (newName : Name) (rest : List Dirent)
      (hparent : n.kind newParent = some .directory)
      (hfree : Free rest newParent newName)
      (habove : n.kind d.childIno = some .directory →
        ¬ ReflTransGen n.Up newParent d.childIno)
      (hkind : ∀ j, n'.kind j = n.kind j)
      (hnlink : ∀ j, n'.nlink j =
        if n.kind d.childIno = some .directory ∧ d.parentIno ≠ newParent then
          (if j = d.parentIno then n.nlink j - 1
          else if j = newParent then n.nlink j + 1
          else n.nlink j)
        else n.nlink j)
      (hentries : n.entries.Perm (d :: rest))
      (hentries' : n'.entries.Perm ({ d with parentIno := newParent, name := newName } :: rest))

variable {n n' : Names}

theorem Tree.up_functional (ht : n.Tree) (a b c : Nat) (hb : n.Up a b) (hc : n.Up a c) :
    b = c := by
  obtain ⟨hdir, d, hd, rfl, rfl⟩ := hb
  obtain ⟨-, e, he, hea, rfl⟩ := hc
  have hcount := ht.named d.childIno (ht.rootUnnamed d hd) hdir
  by_contra hne
  have hde : d ≠ e := fun h => hne (congrArg Dirent.parentIno h)
  have hsub : [d, e].Subperm (n.entries.filter fun x => x.childIno = d.childIno) :=
    List.subperm_of_subset (by simp [hde]) (by simp [hd, he, hea])
  have := hsub.length_le
  rw [← List.countP_eq_length_filter, hcount] at this
  simp at this

theorem Tree.congr (ht : n.Tree) (hkind : n'.kind = n.kind) (hentries : n'.entries = n.entries) :
    n'.Tree := by
  obtain ⟨kind, nlink, entries⟩ := n
  obtain ⟨kind', nlink', entries'⟩ := n'
  dsimp only at hkind hentries
  subst hkind hentries
  exact ⟨ht.root, ht.distinct, ht.parent, ht.child, ht.rootUnnamed, ht.named, ht.rooted⟩

theorem Tree.not_self_parent (ht : n.Tree) {d : Dirent} (hd : d ∈ n.entries) :
    d.parentIno ≠ d.childIno := by
  intro he
  have hdir := ht.parent d hd
  rw [he] at hdir
  have hself : n.Up d.childIno d.childIno := ⟨hdir, d, hd, rfl, he⟩
  -- everything above `d.childIno` is `d.childIno`, but the root is above it
  have hall : ∀ x, ReflTransGen n.Up d.childIno x → x = d.childIno := by
    intro x hx
    induction hx with
    | refl => rfl
    | tail _ hbc ih =>
      subst ih
      exact ht.up_functional _ _ _ hbc hself
  exact ht.rootUnnamed d hd (hall 1 (ht.rooted _ hdir)).symm

section Steps

private theorem tree_insert (ht : n.Tree) {d : Dirent}
    (hparent : n.kind d.parentIno = some .directory) (hfree : Free n.entries d.parentIno d.name)
    (hsame : ∀ j, j ≠ d.childIno → n'.kind j = n.kind j)
    (hchild : (n'.kind d.childIno).isSome) (hfile : n.kind d.childIno ≠ some .directory)
    (hnamed : n'.kind d.childIno = some .directory → n.kind d.childIno = none)
    (hentries : n'.entries.Perm (d :: n.entries)) : n'.Tree := by
  have hpne : d.parentIno ≠ d.childIno := fun he => hfile (he ▸ hparent)
  have hold : ∀ j, n.kind j = some .directory → n'.kind j = some .directory := by
    intro j hj
    rwa [hsame j]
    rintro rfl
    exact hfile hj
  have hup : ∀ a b, n.Up a b → n'.Up a b := by
    rintro a b ⟨hdir, e, he, hea, heb⟩
    exact ⟨hold a hdir, e, hentries.mem_iff.mpr (List.mem_cons_of_mem _ he), hea, heb⟩
  have hrooted : ∀ j, n.kind j = some .directory → ReflTransGen n'.Up j 1 := fun j hj =>
    ReflTransGen.mono hup _ _ (ht.rooted j hj)
  refine ⟨hold 1 ht.root, ?_, ?_, ?_, ?_, ?_, ?_⟩
  · refine (hentries.map fun e : Dirent => (e.parentIno, e.name)).nodup_iff.mpr ?_
    rw [List.map_cons, List.nodup_cons]
    refine ⟨fun hmem => ?_, ht.distinct⟩
    obtain ⟨e, he, hkey⟩ := List.mem_map.mp hmem
    exact hfree e he hkey
  · intro e he
    rcases List.mem_cons.mp (hentries.mem_iff.mp he) with rfl | he
    · exact hold _ hparent
    · exact hold _ (ht.parent e he)
  · intro e he
    rcases List.mem_cons.mp (hentries.mem_iff.mp he) with rfl | he
    · exact hchild
    · by_cases hec : e.childIno = d.childIno
      · rwa [hec]
      · rw [hsame _ hec]
        exact ht.child e he
  · intro e he
    rcases List.mem_cons.mp (hentries.mem_iff.mp he) with rfl | he
    · intro h1
      exact hfile (h1 ▸ ht.root)
    · exact ht.rootUnnamed e he
  · intro ino h1 hdir
    rw [hentries.countP_eq, List.countP_cons]
    by_cases hino : ino = d.childIno
    · subst hino
      have hnone := hnamed hdir
      rw [List.countP_eq_zero.mpr]
      · simp
      · intro e he hec
        have := ht.child e he
        rw [of_decide_eq_true hec, hnone] at this
        simp at this
    · rw [ht.named ino h1 (by rwa [← hsame ino hino]), if_neg (by simpa using Ne.symm hino)]
  · intro ino hdir
    by_cases hino : ino = d.childIno
    · subst hino
      exact .head ⟨hdir, d, hentries.mem_iff.mpr List.mem_cons_self, rfl, rfl⟩
        (hrooted _ hparent)
    · exact hrooted ino (by rwa [← hsame ino hino])

private theorem tree_remove (ht : n.Tree) {d : Dirent}
    (hsame : ∀ j, j ≠ d.childIno → n'.kind j = n.kind j)
    (hgone : n'.kind d.childIno = n.kind d.childIno ∧ n.kind d.childIno ≠ some .directory ∨
      n'.kind d.childIno = none ∧ (∀ e ∈ n'.entries, e.childIno ≠ d.childIno) ∧
        ∀ e ∈ n.entries, e.parentIno ≠ d.childIno)
    (hentries : n.entries.Perm (d :: n'.entries)) : n'.Tree := by
  have hd : d ∈ n.entries := hentries.mem_iff.mpr List.mem_cons_self
  have hsub : ∀ e ∈ n'.entries, e ∈ n.entries := fun e he =>
    hentries.mem_iff.mpr (List.mem_cons_of_mem _ he)
  have hparentne : ∀ e ∈ n.entries, e.parentIno ≠ d.childIno := by
    rcases hgone with ⟨-, hfile⟩ | ⟨-, -, hempty⟩
    · intro e he hec
      exact hfile (hec ▸ ht.parent e he)
    · exact hempty
  have hold : ∀ j, n'.kind j = some .directory → j ≠ d.childIno := by
    rintro _ hdir rfl
    rcases hgone with ⟨hkeep, hfile⟩ | ⟨hnone, -⟩
    · exact hfile (hkeep ▸ hdir)
    · rw [hnone] at hdir
      simp at hdir
  refine ⟨?_, ?_, ?_, ?_, fun e he => ht.rootUnnamed e (hsub e he), ?_, ?_⟩
  · rw [hsame 1 (ht.rootUnnamed d hd).symm]
    exact ht.root
  · have hnodup := (hentries.map fun e : Dirent => (e.parentIno, e.name)).nodup_iff.mp ht.distinct
    exact (List.nodup_cons.mp hnodup).2
  · intro e he
    rw [hsame _ (hparentne e (hsub e he))]
    exact ht.parent e (hsub e he)
  · intro e he
    by_cases hec : e.childIno = d.childIno
    · rcases hgone with ⟨hkeep, -⟩ | ⟨-, hunnamed, -⟩
      · rw [hec, hkeep, ← hec]
        exact ht.child e (hsub e he)
      · exact (hunnamed e he hec).elim
    · rw [hsame _ hec]
      exact ht.child e (hsub e he)
  · intro ino h1 hdir
    have hino := hold ino hdir
    have hcount := ht.named ino h1 (by rwa [← hsame ino hino])
    rw [hentries.countP_eq, List.countP_cons, if_neg (by simpa using hino.symm)] at hcount
    exact hcount
  · intro ino hdir
    -- a climb starts at a directory that stays, and nothing lies below the removed inode
    have hclimb : ∀ j, ReflTransGen n.Up j 1 → j ≠ d.childIno → ReflTransGen n'.Up j 1 := by
      intro j hj
      induction hj using ReflTransGen.head_induction_on with
      | refl => exact fun _ => .refl
      | head hab _ ih =>
        intro ha
        obtain ⟨hadir, e, he, hea, rfl⟩ := hab
        refine .head ⟨by rwa [hsame _ ha], e, ?_, hea, rfl⟩ (ih (hparentne e he))
        rcases List.mem_cons.mp (hentries.mem_iff.mp he) with rfl | he
        · exact (ha hea.symm).elim
        · exact he
    exact hclimb ino (ht.rooted ino (by rwa [← hsame ino (hold ino hdir)])) (hold ino hdir)

private theorem tree_move (ht : n.Tree) {d : Dirent} {newParent : Nat} {newName : Name}
    {rest : List Dirent} (hparent : n.kind newParent = some .directory)
    (hfree : Free rest newParent newName)
    (habove : n.kind d.childIno = some .directory → ¬ ReflTransGen n.Up newParent d.childIno)
    (hkind : ∀ j, n'.kind j = n.kind j) (hentries : n.entries.Perm (d :: rest))
    (hentries' : n'.entries.Perm ({ d with parentIno := newParent, name := newName } :: rest)) :
    n'.Tree := by
  have hd : d ∈ n.entries := hentries.mem_iff.mpr List.mem_cons_self
  have hrest : ∀ e ∈ rest, e ∈ n.entries := fun e he =>
    hentries.mem_iff.mpr (List.mem_cons_of_mem _ he)
  refine ⟨by rw [hkind, ht.root], ?_, ?_, ?_, ?_, ?_, ?_⟩
  · refine (hentries'.map fun e : Dirent => (e.parentIno, e.name)).nodup_iff.mpr ?_
    have hnodup := (hentries.map fun e : Dirent => (e.parentIno, e.name)).nodup_iff.mp ht.distinct
    rw [List.map_cons, List.nodup_cons] at hnodup ⊢
    refine ⟨fun hmem => ?_, hnodup.2⟩
    obtain ⟨e, he, hkey⟩ := List.mem_map.mp hmem
    exact hfree e he hkey
  · intro e he
    rw [hkind]
    rcases List.mem_cons.mp (hentries'.mem_iff.mp he) with rfl | he
    · exact hparent
    · exact ht.parent e (hrest e he)
  · intro e he
    rw [hkind]
    rcases List.mem_cons.mp (hentries'.mem_iff.mp he) with rfl | he
    · exact ht.child d hd
    · exact ht.child e (hrest e he)
  · intro e he
    rcases List.mem_cons.mp (hentries'.mem_iff.mp he) with rfl | he
    · exact ht.rootUnnamed d hd
    · exact ht.rootUnnamed e (hrest e he)
  · intro ino h1 hdir
    have hcount := ht.named ino h1 (hkind ino ▸ hdir)
    rw [hentries.countP_eq, List.countP_cons] at hcount
    rwa [hentries'.countP_eq, List.countP_cons]
  · intro ino hdir
    rw [hkind] at hdir
    have hstep : ∀ a b, a ≠ d.childIno → n.Up a b → n'.Up a b := by
      rintro a b ha ⟨hadir, e, he, hea, heb⟩
      rcases List.mem_cons.mp (hentries.mem_iff.mp he) with rfl | he
      · exact (ha hea.symm).elim
      · exact ⟨by rwa [hkind], e, hentries'.mem_iff.mpr (List.mem_cons_of_mem _ he), hea, heb⟩
    by_cases hddir : n.kind d.childIno = some .directory
    · exact Lib.Forest.climb_of_rehang hstep
        ⟨by rwa [hkind], _, hentries'.mem_iff.mpr List.mem_cons_self, rfl, rfl⟩
        (ht.rooted newParent hparent) (habove hddir) (ht.rooted ino hdir)
    · refine ReflTransGen.mono (fun a b hab => hstep a b ?_ hab) _ _ (ht.rooted ino hdir)
      rintro rfl
      exact hddir hab.1

theorem Step.tree (h : Step n n') (ht : n.Tree) : n'.Tree := by
  cases h with
  | create d k hnew hparent hfree hkind hnlink hentries =>
    exact tree_insert ht hparent hfree (fun j hj => by rw [hkind, if_neg hj])
      (by simp [hkind]) (by simp [hnew]) (fun _ => hnew) hentries
  | link d hchild hfile hparent hfree hkind hnlink hentries =>
    exact tree_insert ht hparent hfree (fun j _ => hkind j) (by rwa [hkind]) hfile
      (fun hdir => (hfile (hkind _ ▸ hdir)).elim) hentries
  | drop d hfile hkind hnlink hentries =>
    exact tree_remove ht (fun j _ => hkind j) (.inl ⟨hkind _, hfile⟩) hentries
  | erase d hunnamed hempty hkind hnlink hentries =>
    exact tree_remove ht (fun j hj => by rw [hkind, if_neg hj])
      (.inr ⟨by simp [hkind], hunnamed, hempty⟩) hentries
  | sweep ino hfile hunnamed hkind hnlink hentries =>
    have hkeep : ∀ j, n.kind j = some .directory → n'.kind j = some .directory := by
      intro j hj
      rwa [hkind, if_neg]
      rintro rfl
      exact hfile hj
    have hback : ∀ j, n'.kind j = some .directory → n.kind j = some .directory := by
      intro j hj
      rw [hkind] at hj
      split at hj
      · simp at hj
      · exact hj
    refine ⟨hkeep 1 ht.root, hentries ▸ ht.distinct, ?_, ?_, hentries ▸ ht.rootUnnamed, ?_, ?_⟩
    · exact hentries ▸ fun d hd => hkeep _ (ht.parent d hd)
    · intro d hd
      rw [hentries] at hd
      rw [hkind, if_neg (hunnamed d hd)]
      exact ht.child d hd
    · exact hentries ▸ fun j h1 hj => ht.named j h1 (hback j hj)
    · refine fun j hj => ReflTransGen.mono ?_ _ _ (ht.rooted j (hback j hj))
      rintro a b ⟨ha, d, hd, hda, hdb⟩
      exact ⟨hkeep a ha, d, hentries ▸ hd, hda, hdb⟩
  | move d newParent newName rest hparent hfree habove hkind hnlink hentries hentries' =>
    exact tree_move ht hparent hfree habove hkind hentries hentries'

end Steps

section Counts

/-- What entry `d` adds to the link count of `ino`. -/
def share (kind : Nat → Option FileKind) (d : Dirent) (ino : Nat) : Nat :=
  if kind ino = some .directory then
    if d.parentIno = ino ∧ kind d.childIno = some .directory then 1 else 0
  else if d.childIno = ino then 1 else 0

private theorem linkCount_of_perm {d : Dirent} {m : Names} (hperm : n.entries.Perm (d :: m.entries))
    (hkind : m.kind = n.kind) (ino : Nat) :
    n.linkCount ino = m.linkCount ino + share n.kind d ino := by
  simp only [linkCount, share, hkind, hperm.countP_eq, List.countP_cons, decide_eq_true_eq]
  split <;> omega

private theorem linkCount_congr (n n' : Names) {ino : Nat} (hentries : n'.entries = n.entries)
    (hino : n'.kind ino = n.kind ino)
    (hkind : ∀ d ∈ n.entries, n'.kind d.childIno = n.kind d.childIno) :
    n'.linkCount ino = n.linkCount ino := by
  rw [linkCount, linkCount, hino, hentries]
  congr 2
  exact List.countP_congr fun d hd => by rw [hkind d hd]

private theorem linkCount_insert {d : Dirent}
    (hentries : n'.entries.Perm (d :: n.entries)) {ino : Nat} (hino : n'.kind ino = n.kind ino)
    (hkind : ∀ e ∈ n.entries, n'.kind e.childIno = n.kind e.childIno) :
    n'.linkCount ino = n.linkCount ino + share n'.kind d ino := by
  rw [linkCount_of_perm (m := { n' with entries := n.entries }) hentries rfl ino,
    linkCount_congr n { n' with entries := n.entries } rfl hino hkind]

private theorem linkCount_remove {d : Dirent}
    (hentries : n.entries.Perm (d :: n'.entries)) {ino : Nat} (hino : n'.kind ino = n.kind ino)
    (hkind : ∀ e ∈ n'.entries, n'.kind e.childIno = n.kind e.childIno) :
    n.linkCount ino = n'.linkCount ino + share n.kind d ino := by
  rw [linkCount_of_perm (m := { n with entries := n'.entries }) hentries rfl ino,
    linkCount_congr { n with entries := n'.entries } n' rfl hino hkind]

private theorem exact_create (ht : n.Tree) (he : n.Exact) {d : Dirent} {k : FileKind}
    (hnew : n.kind d.childIno = none) (hparent : n.kind d.parentIno = some .directory)
    (hkind : ∀ j, n'.kind j = if j = d.childIno then some k else n.kind j)
    (hnlink : ∀ j, n'.nlink j =
      if j = d.childIno then (if k = .directory then 2 else 1)
      else if k = .directory ∧ j = d.parentIno then n.nlink j + 1
      else n.nlink j)
    (hentries : n'.entries.Perm (d :: n.entries)) : n'.Exact := by
  have hchild : ∀ e ∈ n.entries, e.childIno ≠ d.childIno := by
    intro e hmem hec
    have := ht.child e hmem
    rw [hec, hnew] at this
    simp at this
  have hpne : ∀ e ∈ n'.entries, e.parentIno ≠ d.childIno := by
    intro e hmem hec
    rcases List.mem_cons.mp (hentries.mem_iff.mp hmem) with rfl | hmem
    · rw [hec, hnew] at hparent
      simp at hparent
    · have := ht.parent e hmem
      rw [hec, hnew] at this
      simp at this
  intro ino hsome
  rw [hnlink]
  by_cases hino : ino = d.childIno
  · subst hino
    have hself : n'.kind d.childIno = some k := by rw [hkind, if_pos rfl]
    rw [if_pos rfl]
    by_cases hk : k = .directory
    · rw [if_pos hk, linkCount, if_pos (hk ▸ hself),
        List.countP_eq_zero.mpr fun e hmem => by simp [hpne e hmem]]
    · rw [if_neg hk, linkCount, if_neg (by simpa [hself] using hk), hentries.countP_eq,
        List.countP_cons, List.countP_eq_zero.mpr fun e hmem => by simp [hchild e hmem]]
      simp
  · have hold : n'.kind ino = n.kind ino := by rw [hkind, if_neg hino]
    rw [if_neg hino, linkCount_insert hentries hold fun e
      hmem => by rw [hkind, if_neg (hchild e hmem)],
      ← he ino (hold ▸ hsome), share, hold, hkind, if_pos rfl]
    have hdir : d.parentIno = ino → n.kind ino = some .directory := fun h => h ▸ hparent
    simp only [Option.some.injEq, Ne.symm hino, if_false]
    grind

private theorem exact_erase (ht : n.Tree) (he : n.Exact) {d : Dirent}
    (hunnamed : ∀ e ∈ n'.entries, e.childIno ≠ d.childIno)
    (hkind : ∀ j, n'.kind j = if j = d.childIno then none else n.kind j)
    (hnlink : ∀ j, j ≠ d.childIno → n'.nlink j =
      if n.kind d.childIno = some .directory ∧ j = d.parentIno then n.nlink j - 1
      else n.nlink j)
    (hentries : n.entries.Perm (d :: n'.entries)) : n'.Exact := by
  intro ino hsome
  have hino : ino ≠ d.childIno := by
    rintro rfl
    simp [hkind] at hsome
  have hold : n'.kind ino = n.kind ino := by rw [hkind, if_neg hino]
  have hcount := linkCount_remove hentries hold fun e hmem => by
    rw [hkind, if_neg (hunnamed e hmem)]
  rw [← he ino (hold ▸ hsome), share] at hcount
  rw [hnlink ino hino]
  have hparent := ht.parent d (hentries.mem_iff.mpr List.mem_cons_self)
  grind

private theorem exact_move (ht : n.Tree) (he : n.Exact) {d : Dirent} {newParent : Nat}
    {newName : Name} {rest : List Dirent} (hparent : n.kind newParent = some .directory)
    (hkind : ∀ j, n'.kind j = n.kind j)
    (hnlink : ∀ j, n'.nlink j =
      if n.kind d.childIno = some .directory ∧ d.parentIno ≠ newParent then
        (if j = d.parentIno then n.nlink j - 1
        else if j = newParent then n.nlink j + 1
        else n.nlink j)
      else n.nlink j)
    (hentries : n.entries.Perm (d :: rest))
    (hentries' : n'.entries.Perm ({ d with parentIno := newParent, name := newName } :: rest)) :
    n'.Exact := by
  have hkind' : n'.kind = n.kind := funext hkind
  intro ino hsome
  rw [hkind'] at hsome
  have hbefore := linkCount_of_perm (m := { n with entries := rest }) hentries rfl ino
  have hafter := linkCount_of_perm (m := { n with entries := rest }) hentries' hkind'.symm ino
  have hold := ht.parent d (hentries.mem_iff.mpr List.mem_cons_self)
  rw [← he ino hsome] at hbefore
  rw [hafter, hnlink]
  simp only [share, hkind'] at hbefore ⊢
  grind

theorem Step.exact (h : Step n n') (ht : n.Tree) (he : n.Exact) : n'.Exact := by
  cases h with
  | create d k hnew hparent hfree hkind hnlink hentries =>
    exact exact_create ht he hnew hparent hkind hnlink hentries
  | link d hchild hfile hparent hfree hkind hnlink hentries =>
    intro ino hsome
    rw [hkind] at hsome
    rw [hnlink, linkCount_insert hentries (hkind ino) fun e _ => hkind _, ← he ino hsome, share,
      hkind, hkind]
    grind
  | drop d hfile hkind hnlink hentries =>
    intro ino hsome
    rw [hkind] at hsome
    have hcount := linkCount_remove hentries (hkind ino) fun e _ => hkind _
    rw [← he ino hsome, share] at hcount
    rw [hnlink]
    grind
  | erase d hunnamed hempty hkind hnlink hentries =>
    exact exact_erase ht he hunnamed hkind hnlink hentries
  | sweep ino hfile hunnamed hkind hnlink hentries =>
    intro j hsome
    have hj : j ≠ ino := by
      rintro rfl
      simp [hkind] at hsome
    have hold : n'.kind j = n.kind j := by rw [hkind, if_neg hj]
    rw [hnlink j hj, linkCount_congr n n' hentries hold fun d
      hd => by rw [hkind, if_neg (hunnamed d hd)],
      he j (hold ▸ hsome)]
  | move d newParent newName rest hparent hfree habove hkind hnlink hentries hentries' =>
    exact exact_move ht he hparent hkind hnlink hentries hentries'

end Counts

end Names

end VibeDbfs
