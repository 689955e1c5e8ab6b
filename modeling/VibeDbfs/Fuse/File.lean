import VibeDbfs.Lib.Chunked
import VibeDbfs.Open.Files
import VibeDbfs.Storage.Sound

/-!
One file as its stored part and, if it has a slot, its open part: the bytes that they stand for
together, when they agree, and what a flush, a write and a cut do to both.
-/

set_option autoImplicit false
set_option relaxedAutoImplicit false

namespace VibeDbfs

open Lib Lib.Bytes

/-- What the database holds about one inode number. -/
structure StoredFile where
  kind : Option FileKind
  nlink : Nat
  size : Nat
  chunk : Nat → Bytes

structure File where
  stored : StoredFile
  live : Option OpenFile

namespace StoredFile

structure Ok (f : StoredFile) : Prop where
  within : Within chunkSize f.size f.chunk
  max : f.kind = some .regularFile → f.size ≤ maxFileSize

/-- The stored part after the dirty chunks of `o` were written. -/
def flush (f : StoredFile) (o : OpenFile) : StoredFile :=
  { f with size := o.size, chunk := fun c => (o.dirty c).getD (f.chunk c) }

def cut (f : StoredFile) (size : Nat) : StoredFile :=
  { f with size := size, chunk := fun c => (f.chunk c).take (size - c * chunkSize) }

end StoredFile

namespace OpenFile

def flushed (o : OpenFile) : OpenFile := { o with dirty := fun _ => none }

/-- The open part after `bytes` became the dirty chunk `c`. -/
def withChunk (o : OpenFile) (c : Nat) (bytes : Bytes) : OpenFile :=
  { o with dirty := fun d => if d = c then some bytes else o.dirty d }

/-- The open part `o` agrees with the stored part `f`. -/
structure Agrees (f : StoredFile) (o : OpenFile) : Prop where
  kind : f.kind = some o.kind
  grows : f.size ≤ o.size
  max : o.kind = .regularFile → o.size ≤ maxFileSize
  dirty : ∀ c bytes, o.dirty c = some bytes → o.kind = .regularFile ∧ c < maxChunks ∧
    (f.chunk c).length ≤ bytes.length ∧ bytes.length ≤ chunkSize ∧
      c * chunkSize + bytes.length ≤ o.size
  grown : f.size < o.size → ∃ c bytes, o.dirty c = some bytes ∧
    c * chunkSize + bytes.length = o.size
  unlinked : o.unlinked = true → 0 < o.refs ∧ f.nlink = 0

end OpenFile

namespace File

def size (f : File) : Nat := (f.live.map OpenFile.size).getD f.stored.size

def chunk (f : File) (c : Nat) : Bytes := (f.live.bind fun o => o.dirty c).getD (f.stored.chunk c)

def bytes (f : File) : Bytes := glue chunkSize f.size f.chunk

def refs (f : File) : Nat := (f.live.map OpenFile.refs).getD 0

def unlinked (f : File) : Bool := (f.live.map OpenFile.unlinked).getD false

def Clean (f : File) : Prop := ∀ o, f.live = some o → o.Clean

structure Ok (f : File) : Prop where
  stored : f.stored.Ok
  live : ∀ o, f.live = some o → o.Agrees f.stored

variable {f : File} {s : StoredFile} {o : OpenFile}

@[simp] theorem length_bytes : f.bytes.length = f.size := length_glue

theorem bytes_congr {g : File} (hsize : g.size = f.size) (hchunk : g.chunk = f.chunk) :
    g.bytes = f.bytes := by
  rw [bytes, bytes, hsize, hchunk]

@[simp] theorem size_some : (⟨s, some o⟩ : File).size = o.size := rfl

@[simp] theorem size_none : (⟨s, none⟩ : File).size = s.size := rfl

private theorem Ok.of_some (h : s.Ok) (ha : o.Agrees s) : (⟨s, some o⟩ : File).Ok :=
  ⟨h, fun _ ho => Option.some.inj ho ▸ ha⟩

private theorem Ok.within (h : f.Ok) : Within chunkSize f.size f.chunk := by
  obtain ⟨s, live⟩ := f
  rcases live with _ | o
  · exact h.stored.within
  · have ha := h.live o rfl
    intro c
    change ((o.dirty c).getD (s.chunk c)).length ≤ chunkSize ∧ ((o.dirty c).getD (s.chunk c) ≠ [] →
      c * chunkSize + ((o.dirty c).getD (s.chunk c)).length ≤ o.size)
    rcases hc : o.dirty c with _ | bytes
    · exact (h.stored.within.mono ha.grows) c
    · obtain ⟨-, -, -, hlen, hend⟩ := ha.dirty c bytes hc
      exact ⟨hlen, fun _ => hend⟩

theorem Ok.size_le (h : f.Ok) (hkind : f.stored.kind = some .regularFile) :
    f.size ≤ maxFileSize := by
  obtain ⟨s, live⟩ := f
  rcases live with _ | o
  · exact h.stored.max hkind
  · have ha := h.live o rfl
    exact ha.max (Option.some.inj (ha.kind.symm.trans hkind))

theorem size_of_clean (h : f.Ok) (hc : f.Clean) : f.size = f.stored.size := by
  obtain ⟨s, live⟩ := f
  rcases live with _ | o
  · rfl
  · have ha := h.live o rfl
    refine Nat.le_antisymm (Nat.le_of_not_lt fun hlt => ?_) ha.grows
    obtain ⟨c, bytes, hdirty, -⟩ := ha.grown hlt
    rw [hc o rfl c] at hdirty
    cases hdirty

private theorem chunk_of_clean (hc : f.Clean) (c : Nat) : f.chunk c = f.stored.chunk c := by
  obtain ⟨s, live⟩ := f
  rcases live with _ | o
  · rfl
  · rw [chunk, Option.bind_some, hc o rfl c, Option.getD_none]

theorem bytes_of_clean (h : f.Ok) (hc : f.Clean) :
    f.bytes = glue chunkSize f.stored.size f.stored.chunk := by
  rw [bytes, size_of_clean h hc, funext (chunk_of_clean hc)]

theorem bytes_flush : (⟨s.flush o, some o.flushed⟩ : File).bytes = (⟨s, some o⟩ : File).bytes := rfl

section Flush

theorem agrees_flush (ha : o.Agrees s) : o.flushed.Agrees (s.flush o) where
  kind := ha.kind
  grows := Nat.le_refl _
  max := ha.max
  dirty := nofun
  grown h := (Nat.lt_irrefl _ h).elim
  unlinked := ha.unlinked

end Flush

section Cut

variable {size : Nat}

theorem cut_spec (h : s.Ok) (hmax : size ≤ maxFileSize) :
    (s.cut size).Ok ∧ glue chunkSize size (s.cut size).chunk =
      resize size (glue chunkSize s.size s.chunk) := by
  obtain ⟨hwithin, hglue⟩ := glue_resize (n := size) h.within (fun _ => rfl :
    ∀ c, (s.cut size).chunk c = (s.chunk c).take (size - c * chunkSize))
  exact ⟨⟨hwithin, fun _ => hmax⟩, hglue⟩

theorem agrees_cut (ha : o.Agrees s) (hc : o.Clean) (hmax : size ≤ maxFileSize) :
    { o with size := size }.Agrees (s.cut size) where
  kind := ha.kind
  grows := Nat.le_refl _
  max _ := hmax
  dirty c bytes hdirty := by
    rw [show o.dirty c = none from hc c] at hdirty
    cases hdirty
  grown h := (Nat.lt_irrefl _ h).elim
  unlinked := ha.unlinked

end Cut

section Piece

variable {c start : Nat} {data base : Bytes}

/-- A write of `data` at `start` of chunk `c`, whose bytes were `base`, splices the data in. -/
theorem write_spec (h : s.Ok) (ha : o.Agrees s) (hk : o.kind = .regularFile) (hc : c < maxChunks)
    (hdata : 0 < data.length) (hstop : start + data.length ≤ chunkSize)
    (hmax : c * chunkSize + (start + data.length) ≤ maxFileSize)
    (hbase : base = (⟨s, some o⟩ : File).chunk c ∨ base = [] ∧ start = 0 ∧
      data.length = chunkSize) :
    let o' := { o.withChunk c (splice start data base) with
      size := max o.size (c * chunkSize + (start + data.length)) }
    o'.Agrees s ∧ (⟨s, some o'⟩ : File).bytes =
      splice (c * chunkSize + start) data (⟨s, some o⟩ : File).bytes := by
  intro o'
  have hchunk : ∀ d, (⟨s, some o'⟩ : File).chunk d =
      if d = c then splice start data base else (⟨s, some o⟩ : File).chunk d := fun d => by
    change (if d = c then some (splice start data base) else o.dirty d).getD (s.chunk d) = _
    split <;> rfl
  obtain ⟨hwithin, hglue⟩ := glue_splice (Ok.of_some h ha).within hdata hstop hbase hchunk
  have hlen : (splice start data base).length = max base.length (start + data.length) :=
    length_splice _ _ _
  have hold : c * chunkSize + base.length ≤ o.size ∨ base = [] := by
    rcases hbase with rfl | ⟨hnil, -⟩
    · by_cases hnil : (⟨s, some o⟩ : File).chunk c = []
      · exact .inr hnil
      · exact .inl (((Ok.of_some h ha).within c).2 hnil)
    · exact .inr hnil
  have hcovers : (s.chunk c).length ≤ (splice start data base).length := by
    rw [hlen]
    rcases hbase with hbase | ⟨-, hstart, hfull⟩
    · rcases hdirty : o.dirty c with _ | bytes
      · have heq : base = s.chunk c := hbase.trans (by rw [chunk, Option.bind_some, hdirty]; rfl)
        exact heq ▸ Nat.le_max_left _ _
      · have heq : base = bytes := hbase.trans (by rw [chunk, Option.bind_some, hdirty]; rfl)
        exact heq ▸ (ha.dirty c bytes hdirty).2.2.1.trans (Nat.le_max_left _ _)
    · exact ((h.within c).1.trans (by omega)).trans (Nat.le_max_right _ _)
  refine ⟨⟨ha.kind, ha.grows.trans (Nat.le_max_left _ _), fun _ => Nat.max_le.mpr ⟨ha.max hk, hmax⟩,
    fun d bytes hd => ?_, fun hgrown => ?_, ha.unlinked⟩, hglue⟩
  · change (if d = c then some (splice start data base) else o.dirty d) = some bytes at hd
    split at hd
    · next heq =>
      subst heq
      obtain rfl := Option.some.inj hd
      have hw := hwithin d
      rw [hchunk, if_pos rfl] at hw
      refine ⟨hk, hc, hcovers, hw.1, hw.2 (List.ne_nil_of_length_pos ?_)⟩
      rw [hlen]
      omega
    · obtain ⟨hk, hd, hcover, hlen, hend⟩ := ha.dirty d bytes hd
      exact ⟨hk, hd, hcover, hlen, hend.trans (Nat.le_max_left _ _)⟩
  · -- the chunk that now ends the file: the one written, or the one that ended it before
    change s.size < max o.size (c * chunkSize + (start + data.length)) at hgrown
    change ∃ d bytes, (if d = c then some (splice start data base) else o.dirty d) = some bytes ∧
      d * chunkSize + bytes.length = max o.size (c * chunkSize + (start + data.length))
    by_cases hle : o.size ≤ c * chunkSize + (start + data.length)
    · refine ⟨c, _, if_pos rfl, ?_⟩
      rw [hlen, Nat.max_eq_right hle]
      rcases hold with hold | rfl
      · rw [Nat.max_eq_right (by omega)]
      · rw [Nat.max_eq_right (by simp)]
    · rw [Nat.max_eq_left (by omega)] at hgrown ⊢
      obtain ⟨d, bytes, hdirty, hend⟩ := ha.grown hgrown
      by_cases heq : d = c
      · subst heq
        refine ⟨d, _, if_pos rfl, ?_⟩
        rcases hbase with hbase | ⟨-, hstart, hfull⟩
        · have heq : base = bytes := hbase.trans (by rw [chunk, Option.bind_some, hdirty]; rfl)
          rw [hlen, heq, Nat.max_eq_left (by omega), hend]
        · have := (ha.dirty d bytes hdirty).2.2.2.1
          omega
      · exact ⟨d, bytes, (if_neg heq).trans hdirty, hend⟩

end Piece

end File

end VibeDbfs

