import VibeDbfs.Fuse.Accounting
import VibeDbfs.Mount.Options

/-!
The size of the write buffer on the command line: which texts are sizes, and what the buffer of a
mounted file system may take.
-/

set_option autoImplicit false
set_option relaxedAutoImplicit false

namespace VibeDbfs

/-- The bytes of the arena's memory in use: `data.len()`. What the vector holds in reserve beyond
its length is not modelled. -/
def ChunkArena.capacityBytes (arena : ChunkArena) : Nat := arena.len.length * chunkSize

namespace Mount

def withoutPlus : List Char → List Char
  | '+' :: rest => rest
  | text => text

/-- `str::parse::<usize>`: decimal digits, with at most one plus sign before them. -/
def parseUsize (text : List Char) : Option Nat :=
  let digits := withoutPlus text
  if digits = [] ∨ digits.all Char.isDigit = false then none
  else
    let value := Nat.ofDigitChars 10 digits 0
    if value < u64Size then some value else none

def splitUnit (text : List Char) : List Char × Nat :=
  match text.getLast?.map Char.toUpper with
  | some 'K' => (text.dropLast, 10)
  | some 'M' => (text.dropLast, 20)
  | some 'G' => (text.dropLast, 30)
  | _ => (text, 0)

/-- Parses `N`, `NK`, `NM` or `NG` (powers of 1024), at least 64 KiB. -/
def parseSize (text : String) : Except String Nat :=
  let text := trim text
  let (digits, shift) := splitUnit text.toList
  match parseUsize digits with
  | none => .error ("`" ++ text ++ "` is not a size such as 65536, 512K, 8M or 1G")
  | some value =>
    let bytes := value * 2 ^ shift
    if u64Size ≤ bytes then .error ("`" ++ text ++ "` is too large")
    else if bytes < 64 * 1024 then
      .error ("`" ++ text ++ "` is below the 64K minimum (one chunk)")
    else .ok bytes

def defaultWriteBuffer : Nat := 64 * 1024 * 1024

def writeBuffer : Option String → Except String Nat
  | none => .ok defaultWriteBuffer
  | some text => parseSize text

/-- The last letter of a size, and how far it shifts the digits. -/
inductive SizeUnit : List Char → Nat → Prop
  | bytes : SizeUnit [] 0
  | kib {c : Char} (h : c = 'k' ∨ c = 'K') : SizeUnit [c] 10
  | mib {c : Char} (h : c = 'm' ∨ c = 'M') : SizeUnit [c] 20
  | gib {c : Char} (h : c = 'g' ∨ c = 'G') : SizeUnit [c] 30

/-- The text is a sign or none, digits and a unit or none, and stands for so many bytes. -/
inductive IsSize : List Char → Nat → Prop
  | intro {sign digits suffix : List Char} {shift : Nat} (hsign : sign = [] ∨ sign = ['+'])
      (hdigits : digits ≠ []) (hall : ∀ c ∈ digits, c.isDigit = true)
      (hunit : SizeUnit suffix shift) :
      IsSize (sign ++ digits ++ suffix) (Nat.ofDigitChars 10 digits 0 * 2 ^ shift)

section Units

private theorem toNat_toUpper (c : Char) :
    c.toUpper.toNat = if 97 ≤ c.toNat ∧ c.toNat ≤ 122 then c.toNat - 32 else c.toNat := by
  have hiff : ('a'.val ≤ c.val ∧ c.val ≤ 'z'.val) ↔ 97 ≤ c.toNat ∧ c.toNat ≤ 122 := by
    rw [UInt32.le_iff_toNat_le, UInt32.le_iff_toNat_le]
    rfl
  unfold Char.toUpper
  split
  · next h =>
    have hrange : 97 ≤ c.val.toNat ∧ c.val.toNat ≤ 122 := hiff.mp h
    rw [if_pos (hiff.mp h)]
    change (c.val + ('A'.val - 'a'.val)).toNat = c.val.toNat - 32
    rw [UInt32.toNat_add]
    change (c.val.toNat + 4294967264) % 4294967296 = _
    omega
  · next h => rw [if_neg (mt hiff.mpr h)]

private theorem toUpper_eq_iff {c l u : Char} (hl : 97 ≤ l.toNat ∧ l.toNat ≤ 122)
    (hu : u.toNat + 32 = l.toNat) : c.toUpper = u ↔ c = l ∨ c = u := by
  rw [← Char.toNat_inj, ← Char.toNat_inj, ← Char.toNat_inj, toNat_toUpper]
  split <;> omega

private theorem splitUnit_concat (body : List Char) (c : Char) : splitUnit (body ++ [c]) =
    if c = 'k' ∨ c = 'K' then (body, 10)
    else if c = 'm' ∨ c = 'M' then (body, 20)
    else if c = 'g' ∨ c = 'G' then (body, 30)
    else (body ++ [c], 0) := by
  have hk : c.toUpper = 'K' ↔ c = 'k' ∨ c = 'K' := toUpper_eq_iff (by decide) rfl
  have hm : c.toUpper = 'M' ↔ c = 'm' ∨ c = 'M' := toUpper_eq_iff (by decide) rfl
  have hg : c.toUpper = 'G' ↔ c = 'g' ∨ c = 'G' := toUpper_eq_iff (by decide) rfl
  simp only [← hk, ← hm, ← hg]
  unfold splitUnit
  rw [List.getLast?_concat, List.dropLast_concat]
  split
  · next h => rw [if_pos (Option.some.inj h)]
  · next h =>
    have h := Option.some.inj h
    rw [if_neg (h ▸ by decide), if_pos h]
  · next h =>
    have h := Option.some.inj h
    rw [if_neg (h ▸ by decide), if_neg (h ▸ by decide), if_pos h]
  · next hnk hnm hng =>
    rw [if_neg fun h => hnk (congrArg some h), if_neg fun h => hnm (congrArg some h),
      if_neg fun h => hng (congrArg some h)]

private theorem unit_of_splitUnit {text digits : List Char} {shift : Nat}
    (h : splitUnit text = (digits, shift)) :
    ∃ suffix, text = digits ++ suffix ∧ SizeUnit suffix shift := by
  rcases List.eq_nil_or_concat text with rfl | ⟨body, c, rfl⟩
  · cases h
    exact ⟨[], rfl, .bytes⟩
  · rw [List.concat_eq_append] at h ⊢
    rw [splitUnit_concat] at h
    split at h
    · next hk =>
      cases h
      exact ⟨[c], rfl, .kib hk⟩
    · split at h
      · next hm =>
        cases h
        exact ⟨[c], rfl, .mib hm⟩
      · split at h
        · next hg =>
          cases h
          exact ⟨[c], rfl, .gib hg⟩
        · cases h
          exact ⟨[], (List.append_nil _).symm, .bytes⟩

private theorem splitUnit_of_unit {body suffix : List Char} {shift : Nat} {c : Char}
    (hdigit : c.isDigit = true) (hunit : SizeUnit suffix shift) :
    splitUnit (body ++ [c] ++ suffix) = (body ++ [c], shift) := by
  cases hunit with
  | bytes =>
    rw [List.append_nil, splitUnit_concat]
    have hnot : ∀ {l : Char}, l.isDigit = false → c ≠ l := by
      rintro l hl rfl
      rw [hdigit] at hl
      cases hl
    rw [if_neg (not_or.mpr ⟨hnot rfl, hnot rfl⟩), if_neg (not_or.mpr ⟨hnot rfl, hnot rfl⟩),
      if_neg (not_or.mpr ⟨hnot rfl, hnot rfl⟩)]
  | kib h => rw [splitUnit_concat, if_pos h]
  | mib h =>
    rw [splitUnit_concat, if_neg, if_pos h]
    rcases h with rfl | rfl <;> decide
  | gib h =>
    rw [splitUnit_concat, if_neg, if_neg, if_pos h]
    all_goals rcases h with rfl | rfl <;> decide

end Units

private theorem withoutPlus_of_digits {digits : List Char} (hall : ∀ c ∈ digits, c.isDigit = true) :
    withoutPlus digits = digits := by
  unfold withoutPlus
  split
  · next rest =>
    have hplus := hall '+' List.mem_cons_self
    cases hplus
  · rfl

private theorem parseUsize_eq_some {text : List Char} {value : Nat} : parseUsize text = some value ↔
    ∃ sign digits, text = sign ++ digits ∧ (sign = [] ∨ sign = ['+']) ∧ digits ≠ [] ∧
      (∀ c ∈ digits, c.isDigit = true) ∧ value = Nat.ofDigitChars 10 digits 0 ∧
        value < u64Size := by
  constructor
  · intro h
    obtain ⟨sign, htext, hsign⟩ : ∃ sign, text = sign ++ withoutPlus text ∧
        (sign = [] ∨ sign = ['+']) := by
      unfold withoutPlus
      split
      · exact ⟨['+'], rfl, .inr rfl⟩
      · exact ⟨[], rfl, .inl rfl⟩
    unfold parseUsize at h
    dsimp only at h
    split at h
    · cases h
    · next hdigits =>
      obtain ⟨hne, hall⟩ := not_or.mp hdigits
      rw [Bool.not_eq_false, List.all_eq_true] at hall
      split at h
      · next hlt =>
        cases h
        exact ⟨sign, _, htext, hsign, hne, hall, rfl, hlt⟩
      · cases h
  · rintro ⟨sign, digits, rfl, hsign, hne, hall, rfl, hlt⟩
    have hdigits : withoutPlus (sign ++ digits) = digits := by
      rcases hsign with rfl | rfl
      · exact withoutPlus_of_digits hall
      · rfl
    unfold parseUsize
    rw [hdigits, if_neg, if_pos hlt]
    rw [not_or, Bool.not_eq_false, List.all_eq_true]
    exact ⟨hne, hall⟩

private theorem parseSize_eq_ok {text : String} {bytes : Nat} : parseSize text = .ok bytes ↔
    IsSize (trim text).toList bytes ∧ 64 * 1024 ≤ bytes ∧ bytes < u64Size := by
  constructor
  · intro h
    unfold parseSize at h
    dsimp only at h
    rcases hsplit : splitUnit (trim text).toList with ⟨body, shift⟩
    rw [hsplit] at h
    dsimp only at h
    obtain ⟨suffix, htext, hunit⟩ := unit_of_splitUnit hsplit
    rcases hvalue : parseUsize body with _ | value
    · rw [hvalue] at h
      cases h
    · rw [hvalue] at h
      dsimp only at h
      obtain ⟨sign, digits, rfl, hsign, hne, hall, rfl, -⟩ := parseUsize_eq_some.mp hvalue
      split at h
      · cases h
      · next hsmall =>
        split at h
        · cases h
        · next hlarge =>
          cases h
          rw [htext]
          exact ⟨.intro hsign hne hall hunit, Nat.le_of_not_lt hlarge, Nat.lt_of_not_le hsmall⟩
  · rintro ⟨hsize, hlarge, hsmall⟩
    unfold parseSize
    dsimp only
    generalize (trim text).toList = chars at hsize
    cases hsize with
    | @intro sign digits suffix shift hsign hne hall hunit =>
      obtain ⟨init, c, rfl⟩ : ∃ init c, digits = init ++ [c] :=
        ⟨_, _, (List.dropLast_append_getLast hne).symm⟩
      have hvalue := Nat.le_mul_of_pos_right (Nat.ofDigitChars 10 (init ++ [c]) 0)
        (Nat.two_pow_pos shift)
      rw [← List.append_assoc, splitUnit_of_unit (hall c (by simp)) hunit, List.append_assoc]
      dsimp only
      rw [parseUsize_eq_some.mpr ⟨sign, init ++ [c], rfl, hsign, hne, hall, rfl, by omega⟩]
      dsimp only
      rw [if_neg (by omega), if_neg (Nat.not_lt.mpr hlarge)]

section Rendering

variable {n shift : Nat} {suffix : List Char}

private theorem trim_of_dark {s : String} (h : ∀ c ∈ s.toList, isWhitespace c = false) :
    trim s = s := by
  have hkeep : ∀ {cs : List Char}, (∀ c ∈ cs, isWhitespace c = false) →
      cs.dropWhile isWhitespace = cs := by
    intro cs hcs
    cases cs with
    | nil => rfl
    | cons c cs =>
      rw [List.dropWhile_cons_of_neg]
      rw [hcs c List.mem_cons_self]
      decide
  unfold trim
  rw [hkeep h, hkeep fun c hc => h c (List.mem_reverse.mp hc), List.reverse_reverse,
    String.ofList_toList]

private theorem dark_of_digit {c : Char} (h : c.isDigit = true) : isWhitespace c = false := by
  have hge : 48 ≤ c.toNat := (Char.isDigit_iff_toNat.mp h).1
  have hle : c.toNat ≤ 57 := (Char.isDigit_iff_toNat.mp h).2
  simp [isWhitespace]
  omega

private theorem dark_of_unit (hunit : SizeUnit suffix shift) :
    ∀ c ∈ suffix, isWhitespace c = false := by
  cases hunit with
  | bytes => exact nofun
  | kib h | mib h | gib h =>
    intro c hc
    cases List.mem_singleton.mp hc
    rcases h with rfl | rfl <;> decide

private theorem parseSize_render (hunit : SizeUnit suffix shift)
    (hlarge : 64 * 1024 ≤ n * 2 ^ shift) (hsmall : n * 2 ^ shift < u64Size) :
    parseSize (toString n ++ String.ofList suffix) = .ok (n * 2 ^ shift) := by
  have hdigits : ∀ c ∈ Nat.toDigits 10 n, c.isDigit = true := fun c hc =>
    Nat.isDigit_of_mem_toDigits (by decide) (by decide) hc
  have hlist : (toString n ++ String.ofList suffix).toList = Nat.toDigits 10 n ++ suffix := by
    rw [String.toList_append, Nat.toString_eq_repr, Nat.repr, String.toList_ofList,
      String.toList_ofList]
  have hdark : ∀ c ∈ (toString n ++ String.ofList suffix).toList, isWhitespace c = false := by
    intro c hc
    rw [hlist] at hc
    rcases List.mem_append.mp hc with hc | hc
    · exact dark_of_digit (hdigits c hc)
    · exact dark_of_unit hunit c hc
  refine parseSize_eq_ok.mpr ⟨?_, hlarge, hsmall⟩
  rw [trim_of_dark hdark, hlist]
  have hsize := IsSize.intro (.inl rfl) Nat.toDigits_ne_nil hdigits hunit
  rwa [Nat.ofDigitChars_ten_toDigits] at hsize

end Rendering

/-- The texts that are sizes, and what they stand for. Every size is read back from its decimal
digits, with any unit. -/
theorem sizes_of_text (text : String) (bytes : Nat) :
    (parseSize text = .ok bytes ↔
      IsSize (trim text).toList bytes ∧ 64 * 1024 ≤ bytes ∧ bytes < u64Size) ∧
    ∀ n suffix shift, SizeUnit suffix shift → n * 2 ^ shift = bytes → 64 * 1024 ≤ bytes →
      bytes < u64Size → parseSize (toString n ++ String.ofList suffix) = .ok bytes := by
  refine ⟨parseSize_eq_ok, ?_⟩
  rintro n suffix shift hunit rfl hlarge hsmall
  exact parseSize_render hunit hlarge hsmall

example : parseSize " +8m\n" = .ok (8 * 1024 * 1024) := by decide

example : parseSize "18014398509481984K" = .error "`18014398509481984K` is too large" := by decide

section Buffer

variable {db : Db} {arg : Option String} {bytes : Nat} {env : Env} {calls : List Call}

private theorem chunk_le_writeBuffer (h : writeBuffer arg = .ok bytes) : chunkSize ≤ bytes := by
  cases arg with
  | none =>
    obtain rfl : defaultWriteBuffer = bytes := Except.ok.inj h
    rw [chunkSize, defaultWriteBuffer]
    omega
  | some text =>
    rw [writeBuffer] at h
    exact (parseSize_eq_ok.mp h).2.1

/-- Whatever calls a mounted file system serves, its buffer never takes more memory than the
option of the command line allows. -/
theorem buffer_of_run (hdb : db.Reached) (hbytes : writeBuffer arg = .ok bytes)
    (h : Dbfs.LegalCalls env (.withWriteBuffer db bytes) calls) :
    (Dbfs.run env (.withWriteBuffer db bytes) calls).table.arena.capacityBytes ≤ bytes := by
  obtain ⟨hinv, hslots⟩ := Dbfs.run_inv (.withWriteBuffer hdb.sound bytes) h
  have hpositive : 1 ≤ bytes / chunkSize :=
    (Nat.one_le_div_iff (by decide)).mpr (chunk_le_writeBuffer hbytes)
  have hmax : (OpenTable.new bytes).arena.maxSlots = bytes / chunkSize := Nat.max_eq_left hpositive
  calc _ ≤ bytes / chunkSize * chunkSize := by
        apply Nat.mul_le_mul_right
        rw [← hmax]
        exact hinv.table.room.len.trans hslots.le
    _ ≤ bytes := Nat.div_mul_le_self bytes chunkSize

/-- With room for one chunk, the second chunk of a file takes the place of the first. -/
def twoChunks : List Call := [
  .createOpen 1 [97] 0o644 0 0 0,
  .writeFh 0 0 [1],
  .writeFh 0 chunkSize [2]]

theorem buffer_of_twoChunks :
    writeBuffer (some "64k") = .ok 65536 ∧
      (Dbfs.run Dbfs.calm (.withWriteBuffer (.fresh 0 0 ⟨0, 0⟩) 65536)
        twoChunks).table.arena.capacityBytes ≤ 65536 := by
  have hbytes : writeBuffer (some "64k") = .ok 65536 := rfl
  exact ⟨hbytes, buffer_of_run (.fresh 0 0 ⟨0, 0⟩) hbytes (by decide)⟩

end Buffer

end Mount

end VibeDbfs
