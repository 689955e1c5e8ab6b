import Mathlib.Data.List.Induction
import Mathlib.Data.List.Nodup
import Mathlib.Order.Lattice

/-!
Listing a changing set page by page. A page delivers, in increasing order, the keys above the last
key delivered so far, and may stop anywhere; the set may change between two pages.
-/

set_option autoImplicit false
set_option relaxedAutoImplicit false

namespace VibeDbfs.Lib

/-- The keys that were present while the page was read, and those it delivered. -/
structure Page (κ : Type) where
  present : κ → Prop
  listed : List κ

namespace Page

variable {κ : Type} {start k : κ} {pages : List (Page κ)} {p : Page κ}

/-- The last key delivered, or `start`. -/
def cursor (start : κ) (delivered : List κ) : κ := delivered.getLast?.getD start

theorem cursor_mem (ks : List κ) : cursor start ks = start ∨ cursor start ks ∈ ks := by
  rcases hlast : ks.getLast? with _ | l
  · exact .inl (by rw [cursor, hlast]; rfl)
  · exact .inr (by rw [cursor, hlast]; exact List.mem_of_getLast? hlast)

def delivered (pages : List (Page κ)) : List κ := pages.flatMap listed

theorem delivered_append : delivered (pages ++ [p]) = delivered pages ++ p.listed := by
  simp [delivered]

variable [LinearOrder κ]

/-- The page lists the keys above `after` in order, without leaving one out below its last. -/
structure Continues (after : κ) (p : Page κ) : Prop where
  sorted : p.listed.Pairwise (· < ·)
  above : ∀ k ∈ p.listed, after < k ∧ p.present k
  gapless : ∀ k, p.present k → after < k → ∀ l ∈ p.listed, k ≤ l → k ∈ p.listed

def Complete (after : κ) (p : Page κ) : Prop := ∀ k, p.present k → after < k → k ∈ p.listed

theorem Continues.of_start {after : κ} {present : κ → Prop} {listed all : List κ}
    (hsorted : all.Pairwise (· < ·)) (hall : ∀ k, k ∈ all ↔ after < k ∧ present k)
    (hstart : listed <+: all) : Continues after ⟨present, listed⟩ := by
  obtain ⟨rest, rfl⟩ := hstart
  obtain ⟨hlisted, -, hrest⟩ := List.pairwise_append.mp hsorted
  refine ⟨hlisted, fun k hk => (hall k).mp (List.mem_append_left _ hk), fun k hpresent hk
    l hl hle => ?_⟩
  rcases List.mem_append.mp ((hall k).mpr ⟨hk, hpresent⟩) with hmem | hmem
  · exact hmem
  · exact (not_le_of_gt (hrest l hl k hmem) hle).elim

def Listing (start : κ) (pages : List (Page κ)) : Prop :=
  ∀ done p rest, pages = done ++ p :: rest → p.Continues (cursor start (delivered done))

theorem listing_nil : Listing start ([] : List (Page κ)) := by
  intro done p rest h
  cases done <;> cases h

theorem listing_append :
    Listing start (pages ++ [p]) ↔
      Listing start pages ∧ p.Continues (cursor start (delivered pages)) := by
  constructor
  · intro h
    refine ⟨fun done q rest heq => h done q (rest ++ [p]) (by rw [heq]; simp), h pages p [] rfl⟩
  · rintro ⟨h, hp⟩ done q rest heq
    rcases List.eq_nil_or_concat' rest with rfl | ⟨rest, r, rfl⟩
    · obtain ⟨rfl, hq⟩ := List.append_inj' heq rfl
      cases hq
      exact hp
    · rw [← List.cons_append, ← List.append_assoc] at heq
      exact h done q rest (List.append_inj' heq rfl).1

theorem le_cursor {ks : List κ} (hsorted : ks.Pairwise (· < ·)) (hk : k ∈ ks) :
    k ≤ cursor start ks := by
  rcases List.eq_nil_or_concat' ks with rfl | ⟨ks, l, rfl⟩
  · cases hk
  · rw [cursor, List.getLast?_concat, Option.getD_some]
    rcases List.mem_append.mp hk with hk | hk
    · exact le_of_lt ((List.pairwise_append.mp hsorted).2.2 k hk l List.mem_cons_self)
    · exact le_of_eq (List.mem_singleton.mp hk)

theorem Listing.increasing (h : Listing start pages) :
    (delivered pages).Pairwise (· < ·) ∧ ∀ k ∈ delivered pages, start < k := by
  induction pages using List.reverseRecOn with
  | nil => exact ⟨List.Pairwise.nil, nofun⟩
  | append_singleton pages p ih =>
    obtain ⟨hpages, hp⟩ := listing_append.mp h
    obtain ⟨hsorted, habove⟩ := ih hpages
    have hstart : start ≤ cursor start (delivered pages) := by
      have hcursor : cursor start (delivered pages) = start ∨
          cursor start (delivered pages) ∈ delivered pages := cursor_mem (delivered pages)
      rcases hcursor with heq | hmem
      · exact le_of_eq heq.symm
      · exact le_of_lt (habove _ hmem)
    rw [delivered_append]
    refine ⟨List.pairwise_append.mpr ⟨hsorted, hp.sorted, fun k hk l hl => ?_⟩, fun k hk => ?_⟩
    · exact lt_of_le_of_lt (le_cursor hsorted hk) (hp.above l hl).1
    · rcases List.mem_append.mp hk with hk | hk
      · exact habove k hk
      · exact lt_of_le_of_lt hstart (hp.above k hk).1

/-- A key that was present on every page has been delivered, unless the cursor is still before
it. -/
theorem Listing.covers (h : Listing start pages) (hk : start < k)
    (hpresent : ∀ p ∈ pages, p.present k) :
    k ∈ delivered pages ∨ cursor start (delivered pages) < k := by
  induction pages using List.reverseRecOn with
  | nil => exact .inr hk
  | append_singleton pages p ih =>
    obtain ⟨hpages, hp⟩ := listing_append.mp h
    rw [delivered_append]
    have hold := ih hpages fun q hq => hpresent q (List.mem_append_left _ hq)
    have hnow : p.present k := hpresent p (List.mem_append_right _ List.mem_cons_self)
    rcases hold with hmem | hbefore
    · exact .inl (List.mem_append_left _ hmem)
    · rcases List.eq_nil_or_concat' p.listed with hnil | ⟨ks, l, hlast⟩
      · rw [hnil, List.append_nil]
        exact .inr hbefore
      · have hl : l ∈ p.listed := hlast ▸ List.mem_append_right _ List.mem_cons_self
        by_cases hle : k ≤ l
        · exact .inl (List.mem_append_right _ (hp.gapless k hnow hbefore l hl hle))
        · refine .inr ?_
          rw [hlast, cursor, ← List.append_assoc, List.getLast?_concat]
          exact lt_of_not_ge hle

theorem Listing.once (h : Listing start (pages ++ [p])) (hk : start < k)
    (hpresent : ∀ q ∈ pages ++ [p], q.present k)
    (hcomplete : p.Complete (cursor start (delivered pages))) :
    (delivered (pages ++ [p])).count k = 1 := by
  obtain ⟨hpages, -⟩ := listing_append.mp h
  have hnodup : (delivered (pages ++ [p])).Nodup := h.increasing.1.imp ne_of_lt
  refine List.count_eq_one_of_mem hnodup ?_
  rw [delivered_append, List.mem_append]
  refine (hpages.covers hk fun q hq => hpresent q (List.mem_append_left _ hq)).imp_right
    fun hbefore => ?_
  exact hcomplete k (hpresent p (List.mem_append_right _ List.mem_cons_self)) hbefore

end Page

end VibeDbfs.Lib
