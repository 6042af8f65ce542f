import Mathlib.Tactic

/-!
A pipe kept in pages. A write goes behind the last page when it fits there and into a new page
otherwise; a read takes from the first page, which is given back when nothing is left of it. So
a pipe can be full long before its pages are.
-/

namespace LearningCpp.Library

/-- A page: where the next byte would go, and how many bytes are still to be read. -/
structure Page where
  stop : Nat
  unread : Nat
  deriving DecidableEq, Repr

/-- Something is left to read on the page, and nothing is written beyond its end. -/
def Page.Holds (size : Nat) (page : Page) : Prop :=
  0 < page.unread ∧ page.unread ≤ page.stop ∧ page.stop ≤ size

namespace Pages

/-- The bytes still to be read. -/
def total (pages : List Page) : Nat := (pages.map Page.unread).sum

/-- A write of `n` bytes to pages of `size` bytes. -/
def write (size n : Nat) : List Page → List Page
  | [] => [⟨n, n⟩]
  | [page] =>
      if page.stop + n ≤ size then [⟨page.stop + n, page.unread + n⟩] else [page, ⟨n, n⟩]
  | page :: next :: pages => page :: write size n (next :: pages)

/-- A write of `n` bytes does not wait: it fits behind the last page, or not all of the `count`
pages are in use. -/
def room (size count n : Nat) (pages : List Page) : Bool :=
  pages.length < count || pages.getLast?.any (fun page => page.stop + n ≤ size)

/-- A read of `k` bytes. -/
def read : Nat → List Page → List Page
  | _, [] => []
  | k, page :: pages =>
      if k < page.unread then {page with unread := page.unread - k} :: pages
      else read (k - page.unread) pages

variable {size count n k : Nat} {pages : List Page}

theorem total_cons (page : Page) (pages : List Page) :
    total (page :: pages) = page.unread + total pages := by
  rw [total, List.map_cons, List.sum_cons, total]

theorem total_write (size n : Nat) (pages : List Page) :
    total (write size n pages) = total pages + n := by
  induction pages using write.induct size n with
  | case1 => simp [write, total]
  | case2 page hfits => simp [write, total, hfits]
  | case3 page hfull => simp [write, total, hfull]
  | case4 page next pages ih =>
      rw [write, total_cons, total_cons, ih]
      omega

theorem total_read (k : Nat) (pages : List Page) : total (read k pages) = total pages - k := by
  induction k, pages using read.induct with
  | case1 k => simp [read, total]
  | case2 k page pages hless =>
      rw [read, if_pos hless, total_cons, total_cons]
      simp only
      omega
  | case3 k page pages hless ih =>
      rw [read, if_neg hless, ih, total_cons]
      omega

/-- Every page holds something, and there are no more than `count` of them. -/
structure Sound (size count : Nat) (pages : List Page) : Prop where
  holds : ∀ page ∈ pages, page.Holds size
  length_le : pages.length ≤ count

theorem Sound.nil (size count : Nat) : Sound size count [] where
  holds page hpage := by cases hpage
  length_le := Nat.zero_le _

theorem Sound.tail {page : Page} (h : Sound size count (page :: pages)) :
    Sound size count pages where
  holds page' hpage' := h.holds page' (List.mem_cons_of_mem page hpage')
  length_le := Nat.le_of_succ_le h.length_le

private theorem holds_write {page : Page} (hpages : ∀ page ∈ pages, page.Holds size) (hpos : 0 < n)
    (hn : n ≤ size) (hpage : page ∈ write size n pages) : page.Holds size := by
  induction pages using write.induct size n with
  | case1 =>
      rw [write, List.mem_singleton] at hpage
      subst hpage
      exact ⟨hpos, Nat.le_refl _, hn⟩
  | case2 last hfits =>
      obtain ⟨-, hle, -⟩ := hpages last List.mem_cons_self
      rw [write, if_pos hfits, List.mem_singleton] at hpage
      subst hpage
      exact ⟨Nat.add_pos_right _ hpos, Nat.add_le_add_right hle n, hfits⟩
  | case3 last hfull =>
      rw [write, if_neg hfull, List.mem_cons, List.mem_singleton] at hpage
      rcases hpage with rfl | rfl
      · exact hpages page List.mem_cons_self
      · exact ⟨hpos, Nat.le_refl _, hn⟩
  | case4 first next pages ih =>
      rw [write, List.mem_cons] at hpage
      rcases hpage with rfl | hlater
      · exact hpages page List.mem_cons_self
      · exact ih (fun page' hpage' => hpages page' (List.mem_cons_of_mem first hpage')) hlater

private theorem length_write_le (h : room size count n pages = true) (hle : pages.length ≤ count) :
    (write size n pages).length ≤ count := by
  induction pages using write.induct size n generalizing count with
  | case1 =>
      have hunused : 0 < count := by simpa [room] using h
      rw [write, List.length_singleton]
      omega
  | case2 page hfits => simpa [write, hfits] using hle
  | case3 page hfull =>
      have hunused : 1 < count := by simpa [room, hfull] using h
      rw [write, if_neg hfull, List.length_cons, List.length_singleton]
      omega
  | case4 page next pages ih =>
      rw [List.length_cons] at hle
      have hlater : room size (count - 1) n (next :: pages) = true := by
        simp only [room, List.length_cons, List.getLast?_cons_cons] at h ⊢
        refine (Bool.or_eq_true _ _).mpr (((Bool.or_eq_true _ _).mp h).imp ?_ id)
        simp only [decide_eq_true_eq]
        omega
      have hwritten := ih hlater (by omega)
      rw [write, List.length_cons]
      omega

theorem Sound.write (h : Sound size count pages) (hpos : 0 < n) (hn : n ≤ size)
    (hroom : room size count n pages = true) : Sound size count (write size n pages) where
  holds _ hpage := holds_write h.holds hpos hn hpage
  length_le := length_write_le hroom h.length_le

theorem Sound.read (h : Sound size count pages) (k : Nat) : Sound size count (read k pages) := by
  induction k, pages using read.induct with
  | case1 k => exact h
  | case2 k page pages hless =>
      rw [Pages.read, if_pos hless]
      obtain ⟨hpos, hstop, hsize⟩ := h.holds page List.mem_cons_self
      refine ⟨?_, h.length_le⟩
      intro page' hpage'
      rcases List.mem_cons.mp hpage' with rfl | hlater
      · exact ⟨Nat.sub_pos_of_lt hless, (Nat.sub_le _ _).trans hstop, hsize⟩
      · exact h.tail.holds page' hlater
  | case3 k page pages hless ih =>
      rw [Pages.read, if_neg hless]
      exact ih h.tail

theorem Sound.total_le (h : Sound size count pages) : total pages ≤ size * count := by
  have hsum : total pages ≤ size * pages.length := by
    have hle := List.sum_le_card_nsmul (pages.map Page.unread) size (by
      intro unread hunread
      obtain ⟨page, hpage, rfl⟩ := List.mem_map.mp hunread
      obtain ⟨-, hstop, hsize⟩ := h.holds page hpage
      exact hstop.trans hsize)
    rw [List.length_map, smul_eq_mul, Nat.mul_comm] at hle
    exact hle
  exact hsum.trans (Nat.mul_le_mul_left size h.length_le)

/-- A write that does not wait fits, byte for byte. -/
theorem Sound.fits (h : Sound size count pages) (hpos : 0 < n) (hn : n ≤ size)
    (hroom : room size count n pages = true) : total pages + n ≤ size * count := by
  rw [← total_write size n pages]
  exact (h.write hpos hn hroom).total_le

/-- Into an empty pipe no write waits. -/
theorem Sound.room_of_empty (h : Sound size count pages) (hcount : 0 < count)
    (hempty : total pages = 0) : room size count n pages = true := by
  cases pages with
  | nil => simp [room, hcount]
  | cons page pages =>
      have hpos := (h.holds page List.mem_cons_self).1
      rw [total_cons] at hempty
      omega

end Pages

end LearningCpp.Library
