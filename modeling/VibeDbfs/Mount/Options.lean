import Mathlib.Data.List.Forall2
import Mathlib.Data.List.Infix
import Mathlib.Data.List.Nodup
import Mathlib.Data.List.TakeWhile

/-!
The mount options: the command line's flags and `-o` strings are folded into one list, over defaults
that they cannot take away.
-/

set_option autoImplicit false
set_option relaxedAutoImplicit false

namespace VibeDbfs.Mount

section Strings

/-- Unicode `White_Space`, which `str::trim` strips. -/
def isWhitespace (c : Char) : Bool :=
  let n := c.toNat
  (9 ≤ n && n ≤ 13) || n == 0x20 || n == 0x85 || n == 0xA0 || n == 0x1680 ||
    (0x2000 ≤ n && n ≤ 0x200A) || n == 0x2028 || n == 0x2029 || n == 0x202F || n == 0x205F ||
      n == 0x3000

def trim (s : String) : String :=
  String.ofList ((s.toList.dropWhile isWhitespace).reverse.dropWhile isWhitespace).reverse

/-- `raw.split(separator)`: one piece more than there are separators. -/
def split (separator : Char) (raw : String) : List String :=
  (raw.toList.splitOn separator).map String.ofList

def Contains (s text : String) : Prop := text.toList <:+: s.toList

instance (s text : String) : Decidable (Contains s text) :=
  inferInstanceAs (Decidable (_ <:+: _))

/-- The parts before and after the first `separator`. -/
def splitOnce (separator : Char) (s : String) : Option (String × String) :=
  match s.toList.dropWhile (· ≠ separator) with
  | [] => none
  | _ :: rest => some (String.ofList (s.toList.takeWhile (· ≠ separator)), String.ofList rest)

end Strings

inductive MountOption where
  | fsName (name : String)
  | subtype (name : String)
  | custom (token : String)
  | ro | rw | allowOther | allowRoot | autoUnmount | defaultPermissions | atime | noAtime | suid
  | noSuid | dev | noDev | exec | noExec | dirSync | sync | async
  deriving DecidableEq, Repr

inductive RunError where
  | mountOptions (message : String)
  deriving DecidableEq, Repr

structure MountConfig where
  allowOther : Bool
  allowRoot : Bool
  autoUnmount : Bool
  extra : List String
  deriving DecidableEq, Repr

def mountOptions : List MountOption := [.fsName "dbfs", .defaultPermissions]

def valueOption (token : String) : Except RunError MountOption :=
  match splitOnce '=' token with
  | some ("fsname", "") | some ("subtype", "") =>
    .error (.mountOptions ("'" ++ token ++ "' needs a value"))
  | some ("fsname", name) => .ok (.fsName name)
  | some ("subtype", name) => .ok (.subtype name)
  | _ => .ok (.custom token)

def parseOption (raw : String) : Except RunError MountOption :=
  let token := trim raw
  if token = "" then .error (.mountOptions "empty mount option")
  else if Contains token "default_permissions" ∧ token ≠ "default_permissions" then
    .error (.mountOptions ("'" ++ token ++
      "' would disable kernel permission checks; default_permissions is always enabled"))
  else
    match token with
    | "ro" => .ok .ro
    | "rw" => .ok .rw
    | "allow_other" => .ok .allowOther
    | "allow_root" => .ok .allowRoot
    | "auto_unmount" => .ok .autoUnmount
    | "default_permissions" => .ok .defaultPermissions
    | "atime" => .ok .atime
    | "noatime" => .ok .noAtime
    | "suid" => .ok .suid
    | "nosuid" => .ok .noSuid
    | "dev" => .ok .dev
    | "nodev" => .ok .noDev
    | "exec" => .ok .exec
    | "noexec" => .ok .noExec
    | "dirsync" => .ok .dirSync
    | "sync" => .ok .sync
    | "async" => .ok .async
    | _ => valueOption token

namespace MountConfig

def flags (config : MountConfig) : List MountOption :=
  (if config.allowOther then [.allowOther] else []) ++
    (if config.allowRoot then [.allowRoot] else []) ++
      if config.autoUnmount then [.autoUnmount] else []

def tokens (config : MountConfig) : List String := config.extra.flatMap (split ',')

def requested (config : MountConfig) : Except RunError (List MountOption) := do
  let parsed ← config.tokens.mapM parseOption
  .ok (config.flags ++ parsed)

end MountConfig

def fsName? : MountOption → Option String
  | .fsName name => some name
  | _ => none

def subtype? : MountOption → Option String
  | .subtype name => some name
  | _ => none

def addOption (options : List MountOption) (option : MountOption) : List MountOption :=
  match option with
  | .fsName _ => options.filter (fun existing => (fsName? existing).isNone) ++ [option]
  | .subtype _ => options.filter (fun existing => (subtype? existing).isNone) ++ [option]
  | _ => if option ∈ options then options else options ++ [option]

def checkAllow (options : List MountOption) : Except RunError (List MountOption) :=
  let allowOther := MountOption.allowOther ∈ options
  let allowRoot := MountOption.allowRoot ∈ options
  if allowOther ∧ allowRoot then
    .error (.mountOptions "--allow-other and --allow-root cannot be used together")
  else if .autoUnmount ∈ options ∧ ¬(allowOther ∨ allowRoot) then
    .error (.mountOptions ("auto_unmount requires --allow-other or --allow-root " ++
      "(fusermount3 requests allow_other for auto-unmount)"))
  else .ok options

def mountOptionsFor (config : MountConfig) : Except RunError (List MountOption) := do
  let requested ← config.requested
  checkAllow (requested.foldl addOption mountOptions)

section Parsing

variable {token raw a b name text : String} {separator : Char} {option : MountOption}

private theorem splitOnce_append (h : splitOnce separator token = some (a, b)) :
    token.toList = a.toList ++ separator :: b.toList := by
  have hparts := List.takeWhile_append_dropWhile (p := (· ≠ separator)) (l := token.toList)
  unfold splitOnce at h
  split at h
  · cases h
  · next c rest hrest =>
    have hne : token.toList.dropWhile (· ≠ separator) ≠ [] := by
      rw [hrest]
      exact List.cons_ne_nil c rest
    have hhead := List.head_dropWhile_not (· ≠ separator) hne
    have hcons : (token.toList.dropWhile (· ≠ separator)).head hne = c := by
      simp only [hrest, List.head_cons]
    rw [hcons] at hhead
    have hc : c = separator := by simpa using hhead
    obtain ⟨rfl, rfl⟩ := Prod.mk.inj (Option.some.inj h)
    rw [hrest, hc] at hparts
    simpa using hparts.symm

private theorem splitOnce_eq (key value : List Char) (hkey : separator ∉ key)
    (h : token.toList = key ++ separator :: value) :
    splitOnce separator token = some (String.ofList key, String.ofList value) := by
  have hne : ∀ c ∈ key, decide (c ≠ separator) = true := by
    intro c hc
    have hcne : c ≠ separator := fun heq => hkey (heq ▸ hc)
    exact decide_eq_true hcne
  unfold splitOnce
  rw [h, List.dropWhile_append_of_pos hne, List.takeWhile_append_of_pos hne]
  simp

/-- The text after `key=` of a token that starts with it, blanks around the token aside. -/
def valueOf (key raw : String) : Option String :=
  if (key ++ "=").toList <+: (trim raw).toList then
    some (String.ofList ((trim raw).toList.drop (key ++ "=").toList.length))
  else none

def Valueless (token : String) : Prop := token = "fsname=" ∨ token = "subtype="

instance (token : String) : Decidable (Valueless token) :=
  inferInstanceAs (Decidable (_ ∨ _))

private theorem valueOption_cases (token : String) :
    (Valueless token ∧ ∃ e, valueOption token = .error e) ∨
      ¬Valueless token ∧ ((∃ name, valueOption token = .ok (.fsName name)) ∨
        (∃ name, valueOption token = .ok (.subtype name)) ∨
          valueOption token = .ok (.custom token)) := by
  have hfsName : splitOnce '=' "fsname=" = some ("fsname", "") := by decide
  have hsubtype : splitOnce '=' "subtype=" = some ("subtype", "") := by decide
  have hvalueless : Valueless token →
      splitOnce '=' token = some ("fsname", "") ∨ splitOnce '=' token = some ("subtype", "") := by
    rintro (rfl | rfl)
    · exact .inl hfsName
    · exact .inr hsubtype
  unfold valueOption
  split
  · next h =>
    refine .inl ⟨.inl ?_, _, rfl⟩
    exact String.toList_inj.mp (splitOnce_append h)
  · next h =>
    refine .inl ⟨.inr ?_, _, rfl⟩
    exact String.toList_inj.mp (splitOnce_append h)
  · next name hne h =>
    refine .inr ⟨fun hnone => ?_, .inl ⟨name, rfl⟩⟩
    rcases hvalueless hnone with h' | h'
    · rw [h] at h'
      simp only [Option.some.injEq, Prod.mk.injEq, true_and] at h'
      exact hne h'
    · rw [h] at h'
      simp at h'
  · next name hne h =>
    refine .inr ⟨fun hnone => ?_, .inr (.inl ⟨name, rfl⟩)⟩
    rcases hvalueless hnone with h' | h'
    · rw [h] at h'
      simp at h'
    · rw [h] at h'
      simp only [Option.some.injEq, Prod.mk.injEq, true_and] at h'
      exact hne h'
  · next hfs hsub hfs' hsub' =>
    refine .inr ⟨fun hnone => ?_, .inr (.inr rfl)⟩
    rcases hvalueless hnone with h' | h'
    · exact hfs h'
    · exact hsub h'

private theorem valueOf_eq_some {key : String} :
    valueOf key raw = some name ↔ (trim raw).toList = (key ++ "=").toList ++ name.toList := by
  unfold valueOf
  split
  · next h =>
    obtain ⟨rest, hrest⟩ := h
    rw [← hrest, List.drop_left, Option.some.injEq, List.append_cancel_left_eq, eq_comm,
      ← String.toList_inj, String.toList_ofList, eq_comm]
  · next h =>
    apply iff_of_false
    · intro h'
      cases h'
    · intro h'
      exact h ⟨_, h'.symm⟩

private theorem valueOf_iff_splitOnce {key : String} (hkey : '=' ∉ key.toList) :
    valueOf key raw = some name ↔ splitOnce '=' (trim raw) = some (key, name) := by
  have hlist : (key ++ "=").toList ++ name.toList = key.toList ++ '=' :: name.toList := by
    rw [String.toList_append, List.append_assoc]
    rfl
  rw [valueOf_eq_some, hlist]
  constructor
  · intro h
    rw [splitOnce_eq key.toList name.toList hkey h, String.ofList_toList, String.ofList_toList]
  · exact splitOnce_append

private theorem valueOf_congr {key raw' : String} (h : trim raw = trim raw') :
    valueOf key raw = valueOf key raw' := by
  unfold valueOf
  rw [h]

def Bad (token : String) : Prop :=
  token = "" ∨ Valueless token ∨
    Contains token "default_permissions" ∧ token ≠ "default_permissions"

def plainOptions : List (String × MountOption) := [
  ("ro", .ro), ("rw", .rw), ("allow_other", .allowOther), ("allow_root", .allowRoot),
  ("auto_unmount", .autoUnmount), ("default_permissions", .defaultPermissions), ("atime", .atime),
  ("noatime", .noAtime), ("suid", .suid), ("nosuid", .noSuid), ("dev", .dev), ("nodev", .noDev),
  ("exec", .exec), ("noexec", .noExec), ("dirsync", .dirSync), ("sync", .sync), ("async", .async)]

instance (token : String) : Decidable (Bad token) :=
  inferInstanceAs (Decidable (_ ∨ _))

private theorem parseOption_congr {raw' : String} (h : trim raw = trim raw') :
    parseOption raw = parseOption raw' := by
  unfold parseOption
  rw [h]

private theorem parseOption_plain : ∀ entry ∈ plainOptions,
    ¬Bad entry.1 ∧ trim entry.1 = entry.1 ∧ parseOption entry.1 = .ok entry.2 := by
  decide

private theorem parseOption_other (hempty : trim raw ≠ "")
    (hdefault : ¬(Contains (trim raw) "default_permissions" ∧ trim raw ≠ "default_permissions"))
    (hother : ∀ token ∈ plainOptions.map Prod.fst, token ≠ trim raw) :
    parseOption raw = valueOption (trim raw) := by
  unfold parseOption
  generalize trim raw = token at hempty hdefault hother ⊢
  dsimp only
  rw [if_neg hempty, if_neg hdefault]
  split
  all_goals first
    | rfl
    | exact (hother _ (by decide) rfl).elim

private theorem parseOption_cases (raw : String) :
    (Bad (trim raw) ∧ ∃ e, parseOption raw = .error e) ∨
      ¬Bad (trim raw) ∧
        ((∃ option, (trim raw, option) ∈ plainOptions ∧ parseOption raw = .ok option) ∨
        (∀ token ∈ plainOptions.map Prod.fst, token ≠ trim raw) ∧
          ((∃ name, parseOption raw = .ok (.fsName name)) ∨
            (∃ name, parseOption raw = .ok (.subtype name)) ∨
              parseOption raw = .ok (.custom (trim raw)))) := by
  by_cases hplain : trim raw ∈ plainOptions.map Prod.fst
  · obtain ⟨entry, hentry, heq⟩ := List.mem_map.mp hplain
    obtain ⟨hbad, htrim, hparse⟩ := parseOption_plain entry hentry
    rw [parseOption_congr (heq.symm.trans htrim.symm), ← heq]
    exact .inr ⟨hbad, .inl ⟨entry.2, hentry, hparse⟩⟩
  have hother : ∀ token ∈ plainOptions.map Prod.fst, token ≠ trim raw := by
    intro token htoken heq
    exact hplain (heq ▸ htoken)
  by_cases hempty : trim raw = ""
  · refine .inl ⟨.inl hempty, .mountOptions "empty mount option", ?_⟩
    unfold parseOption
    exact if_pos hempty
  by_cases hdefault : Contains (trim raw) "default_permissions" ∧ trim raw ≠ "default_permissions"
  · refine .inl ⟨.inr (.inr hdefault), ?_⟩
    unfold parseOption
    dsimp only
    rw [if_neg hempty, if_pos hdefault]
    exact ⟨_, rfl⟩
  have hbad : Bad (trim raw) ↔ Valueless (trim raw) := by
    simp only [Bad, hempty, hdefault, false_or, or_false]
  rw [parseOption_other hempty hdefault hother, hbad]
  rcases valueOption_cases (trim raw) with hvalueless | ⟨hsome, hvalue⟩
  · exact .inl hvalueless
  · exact .inr ⟨hsome, .inr ⟨hother, hvalue⟩⟩

end Parsing

section Parsed

variable {config : MountConfig} {requested : List MountOption} {raw : String}

private theorem parseOption_eq_error : (∃ e, parseOption raw = .error e) ↔ Bad (trim raw) := by
  rcases parseOption_cases raw with ⟨hbad, he⟩ | ⟨hbad, hok⟩
  · exact iff_of_true he hbad
  · apply iff_of_false _ hbad
    rintro ⟨e, he⟩
    simp only [he, reduceCtorEq, and_false, exists_false, or_false] at hok

private theorem parseOption_eq_ok_plain {entry : String × MountOption}
    (hentry : entry ∈ plainOptions) :
    parseOption raw = .ok entry.2 ↔ trim raw = entry.1 := by
  have hnames : ∀ a ∈ plainOptions, ∀ b ∈ plainOptions, a.2 = b.2 → a.1 = b.1 := by decide
  have hkinds : ∀ a ∈ plainOptions, fsName? a.2 = none ∧ subtype? a.2 = none := by decide
  have hcustom : ∀ a ∈ plainOptions, ∀ token, a.2 ≠ .custom token := by simp [plainOptions]
  constructor
  · intro h
    rcases parseOption_cases raw with ⟨-, e, he⟩ | ⟨-, ⟨option, hmem, hoption⟩ | ⟨-, hvalue⟩⟩
    · rw [h] at he
      cases he
    · apply hnames _ hmem _ hentry
      exact Except.ok.inj (hoption.symm.trans h)
    · rw [h] at hvalue
      simp only [Except.ok.injEq] at hvalue
      obtain ⟨hfsName, hsubtype⟩ := hkinds entry hentry
      rcases hvalue with ⟨name, hname⟩ | ⟨name, hname⟩ | hname
      · rw [hname] at hfsName
        cases hfsName
      · rw [hname] at hsubtype
        cases hsubtype
      · exact (hcustom entry hentry _ hname).elim
  · intro h
    obtain ⟨-, htrim, hparse⟩ := parseOption_plain entry hentry
    rw [parseOption_congr (h.trans htrim.symm), hparse]

private theorem parseOption_custom {token : String} (h : parseOption raw = .ok (.custom token)) :
    ¬Contains token "default_permissions" := by
  have hcustom : ∀ a ∈ plainOptions, ∀ token, a.2 ≠ .custom token := by simp [plainOptions]
  rcases parseOption_cases raw with ⟨-, e, he⟩ | ⟨hbad, ⟨option, hmem, hoption⟩ | ⟨hother, hvalue⟩⟩
  · rw [h] at he
    cases he
  · exact (hcustom _ hmem token (Except.ok.inj (hoption.symm.trans h))).elim
  · rw [h] at hvalue
    simp only [Except.ok.injEq, reduceCtorEq, exists_false, false_or,
      MountOption.custom.injEq] at hvalue
    have hne := hother "default_permissions" (by decide)
    intro hcontains
    exact hbad (.inr (.inr ⟨hvalue ▸ hcontains, hne.symm⟩))

private theorem named_of_parseOption {option : MountOption} (h : parseOption raw = .ok option) :
    fsName? option = valueOf "fsname" raw ∧ subtype? option = valueOf "subtype" raw := by
  have hplain : ∀ entry ∈ plainOptions, fsName? entry.2 = none ∧ subtype? entry.2 = none ∧
      valueOf "fsname" entry.1 = none ∧ valueOf "subtype" entry.1 = none := by
    decide
  have hfsName : ∀ name, valueOf "fsname" raw = some name ↔
      splitOnce '=' (trim raw) = some ("fsname", name) :=
    fun _ => valueOf_iff_splitOnce (by decide)
  have hsubtype : ∀ name, valueOf "subtype" raw = some name ↔
      splitOnce '=' (trim raw) = some ("subtype", name) :=
    fun _ => valueOf_iff_splitOnce (by decide)
  rcases parseOption_cases raw with ⟨-, e, he⟩ | ⟨hbad, ⟨known, hmem, hknown⟩ | ⟨hother, -⟩⟩
  · rw [h] at he
    cases he
  · obtain ⟨-, htrim, -⟩ := parseOption_plain _ hmem
    obtain ⟨hname, htype, hnameOf, htypeOf⟩ := hplain _ hmem
    obtain rfl : option = known := Except.ok.inj (h.symm.trans hknown)
    rw [valueOf_congr htrim.symm, @valueOf_congr raw "subtype" _ htrim.symm]
    exact ⟨hname.trans hnameOf.symm, htype.trans htypeOf.symm⟩
  · rw [parseOption_other (fun hempty => hbad (.inl hempty))
      (fun hdefault => hbad (.inr (.inr hdefault))) hother] at h
    unfold valueOption at h
    split at h
    · cases h
    · cases h
    · next name _ hsplit =>
      obtain rfl := Except.ok.inj h
      constructor
      · exact ((hfsName name).mpr hsplit).symm
      · cases hof : valueOf "subtype" raw with
        | none => rfl
        | some other =>
          rw [hsubtype, hsplit] at hof
          simp at hof
    · next name _ hsplit =>
      obtain rfl := Except.ok.inj h
      constructor
      · cases hof : valueOf "fsname" raw with
        | none => rfl
        | some other =>
          rw [hfsName, hsplit] at hof
          simp at hof
      · exact ((hsubtype name).mpr hsplit).symm
    · next hname htype =>
      obtain rfl := Except.ok.inj h
      constructor
      · cases hof : valueOf "fsname" raw with
        | none => rfl
        | some other => exact (hname _ ((hfsName other).mp hof)).elim
      · cases hof : valueOf "subtype" raw with
        | none => rfl
        | some other => exact (htype _ ((hsubtype other).mp hof)).elim

private theorem mapM_eq_ok {α β ε : Type} (f : α → Except ε β) (xs : List α) (ys : List β) :
    xs.mapM f = .ok ys ↔ List.Forall₂ (fun x y => f x = .ok y) xs ys := by
  induction xs generalizing ys with
  | nil =>
    rw [List.mapM_nil, List.forall₂_nil_left_iff]
    constructor
    · intro h
      exact (Except.ok.inj h).symm
    · intro h
      rw [h]
      rfl
  | cons x xs ih =>
    rw [List.mapM_cons, List.forall₂_cons_left_iff]
    constructor
    · intro h
      cases hx : f x with
      | error e =>
        rw [hx] at h
        cases h
      | ok y =>
        cases hxs : xs.mapM f with
        | error e =>
          rw [hx, hxs] at h
          cases h
        | ok rest =>
          rw [hx, hxs] at h
          exact ⟨y, rest, rfl, (ih rest).mp hxs, (Except.ok.inj h).symm⟩
    · rintro ⟨y, rest, hx, hrest, rfl⟩
      rw [hx, (ih rest).mpr hrest]
      rfl

private theorem mapM_eq_error {α β ε : Type} (f : α → Except ε β) (xs : List α) :
    (∃ e, xs.mapM f = .error e) ↔ ∃ x ∈ xs, ∃ e, f x = .error e := by
  induction xs with
  | nil =>
    rw [List.mapM_nil]
    constructor
    · rintro ⟨e, he⟩
      cases he
    · rintro ⟨x, hx, -⟩
      cases hx
  | cons x xs ih =>
    rw [List.mapM_cons, List.exists_mem_cons_iff, ← ih]
    cases hx : f x with
    | error e => exact iff_of_true ⟨e, rfl⟩ (.inl ⟨e, rfl⟩)
    | ok y =>
      cases hxs : xs.mapM f with
      | error e => exact iff_of_true ⟨e, rfl⟩ (.inr ⟨e, rfl⟩)
      | ok rest =>
        apply iff_of_false
        · rintro ⟨e, he⟩
          cases he
        · rintro (⟨e, he⟩ | ⟨e, he⟩)
          · cases he
          · cases he

end Parsed

section Folding

variable {options requested : List MountOption} {option added : MountOption}

def Plain (option : MountOption) : Prop := fsName? option = none ∧ subtype? option = none

private theorem kind_cases (option : MountOption) :
    (∃ name, option = .fsName name) ∨ (∃ name, option = .subtype name) ∨ Plain option := by
  cases option with
  | fsName name => exact .inl ⟨name, rfl⟩
  | subtype name => exact .inr (.inl ⟨name, rfl⟩)
  | _ => exact .inr (.inr ⟨rfl, rfl⟩)

private theorem addOption_plain (hplain : Plain option) :
    addOption options option = if option ∈ options then options else options ++ [option] := by
  obtain ⟨hfsName, hsubtype⟩ := hplain
  cases option with
  | fsName name => cases hfsName
  | subtype name => cases hsubtype
  | _ => rfl

private theorem filterMap_addOption_plain {view : MountOption → Option String}
    (hplain : Plain option) (hview : view option = none) :
    (addOption options option).filterMap view = options.filterMap view := by
  rw [addOption_plain hplain]
  split
  · rfl
  · rw [List.filterMap_append, List.filterMap_cons_none hview, List.filterMap_nil, List.append_nil]

private theorem filterMap_dropped {view : MountOption → Option String} {drops : MountOption → Bool}
    (h : ∀ existing, drops existing = false → view existing = none) :
    (options.filter drops).filterMap view = options.filterMap view := by
  rw [List.filterMap_filter]
  apply List.filterMap_congr
  intro existing _
  cases hdrops : drops existing with
  | true => simp only [if_true]
  | false =>
    rw [h existing hdrops]
    simp only [Bool.false_eq_true, if_false]

private theorem filterMap_isNone (view : MountOption → Option String) (options : List MountOption) :
    (options.filter fun existing => (view existing).isNone).filterMap view = [] := by
  rw [List.filterMap_eq_nil_iff]
  intro existing h
  exact Option.isNone_iff_eq_none.mp (List.mem_filter.mp h).2

private theorem fsName?_addOption (options : List MountOption) (option : MountOption) :
    (addOption options option).filterMap fsName? =
      (fsName? option).elim (options.filterMap fsName?) fun name => [name] := by
  rcases kind_cases option with ⟨name, rfl⟩ | ⟨name, rfl⟩ | hplain
  · simp only [addOption]
    rw [List.filterMap_append, filterMap_isNone fsName?]
    exact rfl
  · simp only [addOption]
    rw [List.filterMap_append, filterMap_dropped]
    · exact List.append_nil _
    · intro existing h
      cases existing <;> first | rfl | cases h
  · rw [filterMap_addOption_plain hplain hplain.1, hplain.1, Option.elim_none]

private theorem subtype?_addOption (options : List MountOption) (option : MountOption) :
    (addOption options option).filterMap subtype? =
      (subtype? option).elim (options.filterMap subtype?) fun name => [name] := by
  rcases kind_cases option with ⟨name, rfl⟩ | ⟨name, rfl⟩ | hplain
  · simp only [addOption]
    rw [List.filterMap_append, filterMap_dropped]
    · exact List.append_nil _
    · intro existing h
      cases existing <;> first | rfl | cases h
  · simp only [addOption]
    rw [List.filterMap_append, filterMap_isNone subtype?]
    exact rfl
  · rw [filterMap_addOption_plain hplain hplain.2, hplain.2, Option.elim_none]

private theorem mem_addOption (hplain : Plain option) :
    option ∈ addOption options added ↔ option ∈ options ∨ option = added := by
  rcases kind_cases added with ⟨name, rfl⟩ | ⟨name, rfl⟩ | hadded
  · simp only [addOption, List.mem_append, List.mem_filter, List.mem_singleton, hplain.1,
      Option.isNone_none, and_true]
  · simp only [addOption, List.mem_append, List.mem_filter, List.mem_singleton, hplain.2,
      Option.isNone_none, and_true]
  · rw [addOption_plain hadded]
    split
    · next hmem =>
      constructor
      · intro h
        exact .inl h
      · rintro (h | h)
        · exact h
        · exact h ▸ hmem
    · rw [List.mem_append, List.mem_singleton]

private theorem nodup_concat (h : options.Nodup) (hadded : added ∉ options) :
    (options ++ [added]).Nodup := by
  apply List.nodup_append.mpr
  refine ⟨h, List.pairwise_singleton _ _, ?_⟩
  intro a ha b hb heq
  apply hadded
  rw [← List.mem_singleton.mp hb, ← heq]
  exact ha

private theorem nodup_addOption (h : options.Nodup) : (addOption options added).Nodup := by
  rcases kind_cases added with ⟨name, rfl⟩ | ⟨name, rfl⟩ | hplain
  · apply nodup_concat (h.filter _)
    intro hmem
    cases (List.mem_filter.mp hmem).2
  · apply nodup_concat (h.filter _)
    intro hmem
    cases (List.mem_filter.mp hmem).2
  · rw [addOption_plain hplain]
    split
    · exact h
    · next hadded => exact nodup_concat h hadded

private theorem foldl_replaces (view : MountOption → Option String)
    (hstep : ∀ options option, (addOption options option).filterMap view =
      (view option).elim (options.filterMap view) fun name => [name])
    (options requested : List MountOption) :
    (requested.foldl addOption options).filterMap view =
      (requested.filterMap view).getLast?.elim (options.filterMap view) fun name => [name] := by
  induction requested using List.reverseRecOn with
  | nil => rfl
  | append_singleton requested option ih =>
    rw [List.foldl_append, List.foldl_cons, List.foldl_nil, hstep, List.filterMap_append, ih]
    cases hview : view option with
    | none => simp only [List.filterMap_cons_none hview, List.filterMap_nil, List.append_nil,
        Option.elim_none]
    | some name => simp only [List.filterMap_cons_some hview, List.filterMap_nil,
        List.getLast?_append, List.getLast?_singleton, Option.elim_some, Option.some_or]

private theorem mem_foldl_addOption (hplain : Plain option) :
    option ∈ requested.foldl addOption options ↔ option ∈ options ∨ option ∈ requested := by
  induction requested generalizing options with
  | nil => simp only [List.foldl_nil, List.not_mem_nil, or_false]
  | cons added requested ih =>
    rw [List.foldl_cons, ih, mem_addOption hplain, List.mem_cons, or_assoc]

private theorem nodup_foldl_addOption (h : options.Nodup) :
    (requested.foldl addOption options).Nodup := by
  induction requested generalizing options with
  | nil => exact h
  | cons added requested ih => exact ih (nodup_addOption h)

end Folding

section Granted

variable {config : MountConfig} {requested options parsed : List MountOption} {option : MountOption}

namespace MountConfig

def Asks (config : MountConfig) (flag : Bool) (name : String) : Prop :=
  flag = true ∨ ∃ token ∈ config.tokens, trim token = name

def AsksAllowOther (config : MountConfig) : Prop := config.Asks config.allowOther "allow_other"

def AsksAllowRoot (config : MountConfig) : Prop := config.Asks config.allowRoot "allow_root"

def AsksAutoUnmount (config : MountConfig) : Prop := config.Asks config.autoUnmount "auto_unmount"

def Conflict (config : MountConfig) : Prop :=
  config.AsksAllowOther ∧ config.AsksAllowRoot ∨
    config.AsksAutoUnmount ∧ ¬(config.AsksAllowOther ∨ config.AsksAllowRoot)

/-- A token that may not be asked for, or options that may not be asked for together. -/
def Refused (config : MountConfig) : Prop :=
  (∃ token ∈ config.tokens, Bad (trim token)) ∨ config.Conflict

private theorem requested_eq_ok :
    config.requested = .ok requested ↔ ∃ parsed,
      List.Forall₂ (fun token option => parseOption token = .ok option) config.tokens parsed ∧
        requested = config.flags ++ parsed := by
  unfold MountConfig.requested
  constructor
  · intro h
    cases hparsed : config.tokens.mapM parseOption with
    | error e =>
      rw [hparsed] at h
      cases h
    | ok parsed =>
      rw [hparsed] at h
      exact ⟨parsed, (mapM_eq_ok _ _ _).mp hparsed, (Except.ok.inj h).symm⟩
  · rintro ⟨parsed, hparsed, rfl⟩
    rw [(mapM_eq_ok _ _ _).mpr hparsed]
    rfl

def valuesOf (config : MountConfig) (key : String) : List String :=
  config.tokens.filterMap (valueOf key)

private theorem not_named_mem_flags (config : MountConfig) {option : MountOption}
    (h : option ∈ config.flags) : fsName? option = none ∧ subtype? option = none := by
  revert h option
  unfold flags
  cases config.allowOther <;> cases config.allowRoot <;> cases config.autoUnmount <;> decide

private theorem filterMap_requested {view : MountOption → Option String} (key : String)
    (hflags : ∀ option ∈ config.flags, view option = none)
    (hview : ∀ token option, parseOption token = .ok option → view option = valueOf key token)
    (h : config.requested = .ok requested) :
    requested.filterMap view = config.valuesOf key := by
  obtain ⟨parsed, hparsed, rfl⟩ := requested_eq_ok.mp h
  rw [List.filterMap_append, List.filterMap_eq_nil_iff.mpr hflags, List.nil_append]
  clear h
  unfold valuesOf
  generalize config.tokens = tokens at hparsed
  induction hparsed with
  | nil => rfl
  | @cons token option tokens parsed hfirst _ ih =>
    have hhead := hview token option hfirst
    cases hvalue : valueOf key token with
    | none =>
      rw [List.filterMap_cons_none (hhead.trans hvalue), List.filterMap_cons_none hvalue, ih]
    | some value =>
      rw [List.filterMap_cons_some (hhead.trans hvalue), List.filterMap_cons_some hvalue, ih]

private theorem requested_eq_error :
    (∃ e, config.requested = .error e) ↔ ∃ token ∈ config.tokens, Bad (trim token) := by
  have hmapM := mapM_eq_error parseOption config.tokens
  simp only [parseOption_eq_error] at hmapM
  rw [← hmapM]
  unfold MountConfig.requested
  cases config.tokens.mapM parseOption with
  | error e => exact iff_of_true ⟨e, rfl⟩ ⟨e, rfl⟩
  | ok parsed =>
    apply iff_of_false
    · rintro ⟨e, he⟩
      cases he
    · rintro ⟨e, he⟩
      cases he

private theorem mem_parsed
    (h : List.Forall₂ (fun token option => parseOption token = .ok option) config.tokens parsed) :
    option ∈ parsed ↔ ∃ token ∈ config.tokens, parseOption token = .ok option := by
  generalize config.tokens = tokens at h
  induction h with
  | nil => simp only [List.not_mem_nil, false_and, exists_false]
  | @cons token first tokens rest hfirst _ ih =>
    rw [List.mem_cons, ih, List.exists_mem_cons_iff, hfirst, Except.ok.injEq, eq_comm]

private theorem mem_requested (h : config.requested = .ok requested) :
    option ∈ requested ↔
      option ∈ config.flags ∨ ∃ token ∈ config.tokens, parseOption token = .ok option := by
  obtain ⟨parsed, hparsed, rfl⟩ := requested_eq_ok.mp h
  rw [List.mem_append, mem_parsed hparsed]

private theorem mem_requested_flag (entry : String × MountOption) {flag : Bool}
    (hentry : entry ∈ plainOptions) (hflag : entry.2 ∈ config.flags ↔ flag = true)
    (h : config.requested = .ok requested) : entry.2 ∈ requested ↔ config.Asks flag entry.1 := by
  rw [mem_requested h, hflag]
  simp only [parseOption_eq_ok_plain hentry, Asks]

private theorem mem_requested_allowOther (h : config.requested = .ok requested) :
    .allowOther ∈ requested ↔ config.AsksAllowOther := by
  apply mem_requested_flag ("allow_other", .allowOther) (by decide) _ h
  unfold flags
  cases config.allowOther <;> cases config.allowRoot <;> cases config.autoUnmount <;> decide

private theorem mem_requested_allowRoot (h : config.requested = .ok requested) :
    .allowRoot ∈ requested ↔ config.AsksAllowRoot := by
  apply mem_requested_flag ("allow_root", .allowRoot) (by decide) _ h
  unfold flags
  cases config.allowOther <;> cases config.allowRoot <;> cases config.autoUnmount <;> decide

private theorem mem_requested_autoUnmount (h : config.requested = .ok requested) :
    .autoUnmount ∈ requested ↔ config.AsksAutoUnmount := by
  apply mem_requested_flag ("auto_unmount", .autoUnmount) (by decide) _ h
  unfold flags
  cases config.allowOther <;> cases config.allowRoot <;> cases config.autoUnmount <;> decide

private theorem not_custom_mem_flags (config : MountConfig) (token : String) :
    .custom token ∉ config.flags := by
  unfold flags
  cases config.allowOther <;> cases config.allowRoot <;> cases config.autoUnmount <;> simp

end MountConfig

/-- What the list of options grants of what is asked for. -/
structure Grants (config : MountConfig) (requested options : List MountOption) : Prop where
  defaultPermissions : options.count .defaultPermissions = 1
  fsName : options.filterMap fsName? = [(config.valuesOf "fsname").getLast?.getD "dbfs"]
  subtype : options.filterMap subtype? = (config.valuesOf "subtype").getLast?.toList
  nodup : options.Nodup
  separate : ¬(.allowOther ∈ options ∧ .allowRoot ∈ options)
  autoUnmount : .autoUnmount ∈ options → .allowOther ∈ options ∨ .allowRoot ∈ options
  allowOther : .allowOther ∈ options → config.AsksAllowOther
  custom : ∀ token, .custom token ∈ options → ¬Contains token "default_permissions"
  kept : ∀ token ∈ config.tokens, ∃ option, parseOption token = .ok option ∧
    (Plain option → option ∈ options)
  only : ∀ option, Plain option → option ∈ options →
    option = .defaultPermissions ∨ option ∈ requested

private theorem mem_folded (hplain : Plain option) :
    option ∈ requested.foldl addOption mountOptions ↔
      option = .defaultPermissions ∨ option ∈ requested := by
  have hfsName : option ≠ .fsName "dbfs" := by
    intro h
    rw [h] at hplain
    cases hplain.1
  rw [mem_foldl_addOption hplain]
  simp only [mountOptions, List.mem_cons, hfsName, List.not_mem_nil, false_or, or_false]

private theorem checkAllow_eq_ok :
    checkAllow requested = .ok options ↔ options = requested ∧
      ¬(.allowOther ∈ requested ∧ .allowRoot ∈ requested) ∧
        (.autoUnmount ∈ requested → .allowOther ∈ requested ∨ .allowRoot ∈ requested) := by
  unfold checkAllow
  dsimp only
  split
  · next h => simp only [reduceCtorEq, h, not_true_eq_false, false_and, and_false, and_self]
  · next h =>
    split
    · next h' => simp only [reduceCtorEq, h'.1, h'.2, true_imp_iff, and_false]
    · next h' =>
      rw [not_and, not_not] at h'
      rw [Except.ok.injEq, eq_comm]
      constructor
      · intro heq
        exact ⟨heq, h, h'⟩
      · intro ⟨heq, _⟩
        exact heq

private theorem checkAllow_eq_error :
    (∃ e, checkAllow requested = .error e) ↔ .allowOther ∈ requested ∧ .allowRoot ∈ requested ∨
      .autoUnmount ∈ requested ∧ ¬(.allowOther ∈ requested ∨ .allowRoot ∈ requested) := by
  cases hcheck : checkAllow requested with
  | error e =>
    refine iff_of_true ⟨e, rfl⟩ ?_
    by_contra hrules
    obtain ⟨hseparate, hunmount⟩ := not_or.mp hrules
    rw [not_and, not_not] at hunmount
    have hok := checkAllow_eq_ok.mpr ⟨rfl, hseparate, hunmount⟩
    rw [hcheck] at hok
    cases hok
  | ok options =>
    obtain ⟨-, hseparate, hunmount⟩ := checkAllow_eq_ok.mp hcheck
    apply iff_of_false
    · rintro ⟨e, he⟩
      cases he
    · rintro (h | ⟨h, hnone⟩)
      · exact hseparate h
      · exact hnone (hunmount h)

private theorem mountOptionsFor_eq (h : config.requested = .ok requested) :
    mountOptionsFor config = checkAllow (requested.foldl addOption mountOptions) := by
  unfold mountOptionsFor
  rw [h]
  rfl

private theorem conflict_iff (h : config.requested = .ok requested) :
    (∃ e, mountOptionsFor config = .error e) ↔ config.Conflict := by
  rw [mountOptionsFor_eq h, checkAllow_eq_error, mem_folded ⟨rfl, rfl⟩, mem_folded ⟨rfl, rfl⟩,
    mem_folded ⟨rfl, rfl⟩, config.mem_requested_allowOther h, config.mem_requested_allowRoot h,
    config.mem_requested_autoUnmount h]
  simp only [reduceCtorEq, false_or, MountConfig.Conflict]

private theorem grants_of_ok (h : config.requested = .ok requested)
    (hoptions : mountOptionsFor config = .ok options) : Grants config requested options := by
  rw [mountOptionsFor_eq h, checkAllow_eq_ok] at hoptions
  obtain ⟨rfl, hseparate, hunmount⟩ := hoptions
  have hnodup : (requested.foldl addOption mountOptions).Nodup := nodup_foldl_addOption (by decide)
  constructor
  · apply List.count_eq_one_of_mem hnodup
    exact (mem_folded ⟨rfl, rfl⟩).mpr (.inl rfl)
  · rw [← config.filterMap_requested "fsname" (fun _ hflag => (config.not_named_mem_flags hflag).1)
      (fun _ _ hparse => (named_of_parseOption hparse).1) h,
        foldl_replaces fsName? fsName?_addOption]
    cases (requested.filterMap fsName?).getLast? <;> rfl
  · rw [← config.filterMap_requested "subtype" (fun _ hflag => (config.not_named_mem_flags hflag).2)
      (fun _ _ hparse => (named_of_parseOption hparse).2) h,
      foldl_replaces subtype? subtype?_addOption]
    cases (requested.filterMap subtype?).getLast? <;> rfl
  · exact hnodup
  · exact hseparate
  · exact hunmount
  · intro hmem
    rw [mem_folded ⟨rfl, rfl⟩, config.mem_requested_allowOther h] at hmem
    rcases hmem with hmem | hmem
    · cases hmem
    · exact hmem
  · intro token hmem
    rw [mem_folded ⟨rfl, rfl⟩, config.mem_requested h] at hmem
    rcases hmem with hmem | hmem | ⟨raw, -, hraw⟩
    · cases hmem
    · exact (config.not_custom_mem_flags token hmem).elim
    · exact parseOption_custom hraw
  · intro token htoken
    cases hparse : parseOption token with
    | error e =>
      obtain ⟨e', he'⟩ := config.requested_eq_error.mpr
        ⟨token, htoken, parseOption_eq_error.mp ⟨e, hparse⟩⟩
      rw [h] at he'
      cases he'
    | ok option =>
      refine ⟨option, rfl, fun hplain => ?_⟩
      rw [mem_folded hplain, config.mem_requested h]
      exact .inr (.inr ⟨token, htoken, hparse⟩)
  · intro option hplain hmem
    exact (mem_folded hplain).mp hmem

/-- No flag and no token takes the access rules away, and an error is given for nothing else. -/
theorem mountOptionsFor_spec (config : MountConfig) :
    (∀ options, mountOptionsFor config = .ok options →
      ∃ requested, config.requested = .ok requested ∧ Grants config requested options) ∧
    ((∃ e, mountOptionsFor config = .error e) ↔ config.Refused) := by
  cases h : config.requested with
  | error e =>
    have hbad := config.requested_eq_error.mp ⟨e, h⟩
    have heq : mountOptionsFor config = .error e := by
      unfold mountOptionsFor
      rw [h]
      rfl
    constructor
    · intro options hoptions
      rw [heq] at hoptions
      cases hoptions
    · exact iff_of_true ⟨e, heq⟩ (.inl hbad)
  | ok requested =>
    have hnone : ¬∃ token ∈ config.tokens, Bad (trim token) := by
      rw [← config.requested_eq_error, h]
      rintro ⟨e, he⟩
      cases he
    constructor
    · intro options hoptions
      exact ⟨requested, rfl, grants_of_ok h hoptions⟩
    · rw [conflict_iff h]
      simp only [MountConfig.Refused, hnone, false_or]

/-- The last name wins, the default stays and nothing is listed twice. -/
example : mountOptionsFor ⟨false, true, true, ["fsname=a, ro", "ro,fsname=b,auto_unmount"]⟩ =
    .ok [.defaultPermissions, .allowRoot, .autoUnmount, .ro, .fsName "b"] := by
  decide

end Granted

end VibeDbfs.Mount
