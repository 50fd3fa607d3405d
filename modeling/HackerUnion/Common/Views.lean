import HackerUnion.Common.Strings

namespace HackerUnion.Common

open HackerUnion.Lists (slice slice_natCast length_slice_natCast take_append_slice flatMap_slice)

/-- `range(start, stop)` -/
def rangeBetween (start stop : Int) : List Int :=
  (List.range (stop - start).toNat).map fun (i : Nat) => start + i

/-- What is told about a page besides its items. -/
structure PageInfo where
  total : Int
  totalCurrent : Int
  pages : Int
  page : Int
  window : List Int
  prev : Int
  next : Int
  itemStart : Int
  itemEnd : Int
  deriving DecidableEq

def pageInfo (ld pagesize pages page window : Int) : PageInfo where
  total := ld
  totalCurrent := if page = pages - 1 then ld % pagesize else pagesize
  pages := pages
  page := page
  window := rangeBetween (max 0 (page - window / 2)) (min pages (page + window / 2))
  prev := max 0 (page - 1)
  next := min (max 0 (pages - 1)) (page + 1)
  itemStart := page * pagesize + 1
  itemEnd := min ld ((page + 1) * pagesize)

/-- `math.ceil(ld / float(pagesize))` -/
def pageCount (ld pagesize : Nat) : Nat := (ld + pagesize - 1) / pagesize

/-- The page that is shown: the last one where there are not as many as were asked for. -/
def shownPage (ld pagesize : Nat) (page : Int) : Int := min (max 0 (pageCount ld pagesize - 1)) page

variable {α : Type}

def paginate (data : List α) (pagesize : Nat) (page : Int) (window : Int := 10) :
    Except Raised (List α × PageInfo) :=
  if pagesize = 0 then .error .zeroDivisionError
  else
    let page := shownPage data.length pagesize page
    .ok (slice data (page * pagesize) ((page + 1) * pagesize),
      pageInfo data.length pagesize (pageCount data.length pagesize) page window)

/-- The pages that the list is cut into are not empty, not too long, and what a request for each of
them is answered with. -/
structure Covered (data : List α) (pagesize : Nat) (parts : List (List α)) : Prop where
  whole : parts.flatten = data
  nonempty : ∀ part ∈ parts, part ≠ []
  bounded : ∀ part ∈ parts, part.length ≤ pagesize
  answered : ∀ (p : Nat) part, parts[p]? = some part →
    ∃ info, paginate data pagesize p = .ok (part, info)

/-- What the answer to a request is to be. -/
structure Paginated (data : List α) (pagesize : Nat) (items : List α) (info : PageInfo) : Prop where
  counted : info.totalCurrent = items.length
  placed : items ≠ [] → ∃ before after, data = before ++ items ++ after ∧
    info.itemStart = before.length + 1 ∧ info.itemEnd = before.length + items.length
  inWindow : 0 < info.pages → info.page ∈ info.window
  covered : ∃ parts, Covered data pagesize parts ∧ info.pages = parts.length

theorem mem_rangeBetween {start stop i : Int} :
    i ∈ rangeBetween start stop ↔ start ≤ i ∧ i < stop := by
  rw [rangeBetween, List.mem_map]
  constructor
  · intro h
    obtain ⟨k, hk, rfl⟩ := h
    rw [List.mem_range] at hk
    omega
  · intro h
    exact ⟨(i - start).toNat, List.mem_range.mpr (by omega), by omega⟩

section Sizes

variable {data : List α} {pagesize : Nat} (hpagesize : 1 ≤ pagesize)

include hpagesize

theorem lt_pageCount_iff (ld p : Nat) : p < pageCount ld pagesize ↔ p * pagesize < ld := by
  rw [pageCount, Nat.lt_iff_add_one_le, Nat.le_div_iff_mul_le hpagesize, Nat.add_one_mul]
  omega

theorem le_pageCount_mul (ld : Nat) : ld ≤ pageCount ld pagesize * pagesize := by
  have h := lt_pageCount_iff hpagesize ld (pageCount ld pagesize)
  omega

theorem paginate_eq {page current : Nat}
    (hcurrent : current = min (pageCount data.length pagesize - 1) page) :
    paginate data pagesize page =
      .ok (slice data (current * pagesize : Nat) ((current + 1) * pagesize : Nat),
        pageInfo data.length pagesize (pageCount data.length pagesize) current 10) := by
  have hshown : shownPage data.length pagesize page = current := by
    rw [shownPage]
    omega
  rw [paginate, if_neg (by omega), hshown]
  push_cast
  rfl

theorem covered_slices :
    Covered data pagesize ((List.range (pageCount data.length pagesize)).map fun p =>
      slice data (p * pagesize : Nat) ((p + 1) * pagesize : Nat)) := by
  have hlength (p : Nat) : (slice data (p * pagesize : Nat) ((p + 1) * pagesize : Nat)).length =
      min (p * pagesize + pagesize) data.length - p * pagesize := by
    rw [length_slice_natCast, Nat.add_one_mul]
  refine ⟨?_, ?_, ?_, ?_⟩
  · rw [← List.flatMap_def, flatMap_slice]
    exact List.take_of_length_le (le_pageCount_mul hpagesize _)
  · intro part hpart hnil
    obtain ⟨p, hp, rfl⟩ := List.mem_map.mp hpart
    rw [List.mem_range, lt_pageCount_iff hpagesize] at hp
    have hzero := hlength p
    rw [hnil, List.length_nil] at hzero
    omega
  · intro part hpart
    obtain ⟨p, _, rfl⟩ := List.mem_map.mp hpart
    rw [hlength]
    omega
  · intro p part hpart
    rw [List.getElem?_map, Option.map_eq_some_iff] at hpart
    obtain ⟨q, hq, rfl⟩ := hpart
    obtain ⟨hlt, rfl⟩ := List.getElem?_eq_some_iff.mp hq
    rw [List.length_range] at hlt
    rw [List.getElem_range]
    exact ⟨_, paginate_eq hpagesize (by omega)⟩

/-- The items that a page lacks to be full are not zero, but the rest of the division can be. -/
theorem rest_eq_iff {ld before : Nat} (hbefore : pagesize ∣ before) (hlow : before < ld)
    (hhigh : ld ≤ before + pagesize) : ld % pagesize = ld - before ↔ ld % pagesize ≠ 0 := by
  obtain ⟨items, rfl⟩ := Nat.exists_eq_add_of_lt hlow
  have hmod : (before + items + 1) % pagesize = (items + 1) % pagesize := by
    obtain ⟨p, rfl⟩ := hbefore
    rw [Nat.add_assoc, Nat.mul_add_mod]
  rw [hmod]
  rcases Nat.lt_or_ge (items + 1) pagesize with hlt | hge
  · rw [Nat.mod_eq_of_lt hlt]
    omega
  · rw [show items + 1 = pagesize by omega, Nat.mod_self]
    omega

theorem totalCurrent_eq_iff {page current : Nat}
    (hcurrent : current = min (pageCount data.length pagesize - 1) page) :
    (pageInfo data.length pagesize (pageCount data.length pagesize) current 10).totalCurrent =
        (slice data (current * pagesize : Nat) ((current + 1) * pagesize : Nat)).length ↔
      data.length % pagesize ≠ 0 ∨ (page + 1) * pagesize < data.length := by
  have hlt := lt_pageCount_iff hpagesize data.length
  have hmore := hlt (page + 1)
  have hhigh := le_pageCount_mul hpagesize data.length
  rw [length_slice_natCast, ← hmore, Nat.add_one_mul]
  show (if (current : Int) = pageCount data.length pagesize - 1 then
    (data.length : Int) % pagesize else pagesize) = _ ↔ _
  rcases Nat.eq_zero_or_pos (pageCount data.length pagesize) with hnone | hsome
  · have hempty : data.length = 0 := by
      rw [hnone] at hhigh
      omega
    rw [if_neg (by omega), hnone, hempty, Nat.zero_mod]
    omega
  · rcases Nat.lt_or_ge (page + 1) (pageCount data.length pagesize) with hearly | hlast
    · have hpage : current = page := by omega
      have hfull := hmore.mp hearly
      rw [Nat.add_one_mul] at hfull
      rw [if_neg (by omega), hpage]
      omega
    · have hcount : pageCount data.length pagesize = current + 1 := by omega
      have hlow := (hlt current).mp (by omega)
      rw [hcount, Nat.add_one_mul] at hhigh
      have hrest := rest_eq_iff hpagesize (Nat.dvd_mul_left pagesize current) hlow hhigh
      rw [if_pos (by omega), Nat.min_eq_right hhigh, ← Int.natCast_emod, Nat.cast_inj, hrest]
      omega

end Sizes

/-- The counter of the last page is the rest of a division, which is zero when the page is full. -/
theorem paginate_paginated_iff (data : List α) (pagesize : Nat) (hpagesize : 1 ≤ pagesize)
    (page : Nat) :
    (∃ items info, paginate data pagesize page = .ok (items, info) ∧
      Paginated data pagesize items info) ↔
      data.length % pagesize ≠ 0 ∨ (page + 1) * pagesize < data.length := by
  obtain ⟨current, hcurrent⟩ :
      ∃ current, current = min (pageCount data.length pagesize - 1) page := ⟨_, rfl⟩
  rw [paginate_eq hpagesize hcurrent, ← totalCurrent_eq_iff hpagesize hcurrent]
  constructor
  · intro h
    obtain ⟨items, info, heq, hpaginated⟩ := h
    cases heq
    exact hpaginated.counted
  · intro hcounted
    refine ⟨_, _, rfl, hcounted, ?_, ?_, ?_⟩
    · intro hitems
      have hlow : current * pagesize < data.length := by
        by_contra! hpast
        apply hitems
        rw [← List.length_eq_zero_iff, length_slice_natCast]
        omega
      refine ⟨data.take (current * pagesize), data.drop ((current + 1) * pagesize), ?_, ?_, ?_⟩
      · rw [take_append_slice data (Nat.mul_le_mul_right pagesize (Nat.le_succ current))]
      · rw [List.length_take, pageInfo, Nat.min_eq_left hlow.le]
        push_cast
        rfl
      · rw [List.length_take, Nat.min_eq_left hlow.le, length_slice_natCast]
        show min (data.length : Int) ((current + 1) * pagesize) = _
        rw [Nat.add_one_mul, Int.add_mul]
        omega
    · intro hpages
      change (0 : Int) < pageCount data.length pagesize at hpages
      show (current : Int) ∈ rangeBetween (max 0 (current - 10 / 2))
        (min (pageCount data.length pagesize) (current + 10 / 2))
      rw [mem_rangeBetween]
      omega
    · exact ⟨_, covered_slices hpagesize, by simp [pageInfo]⟩

theorem paginate_paginated_part :
    ∃ items info, paginate [1, 2, 3] 2 (1 : Nat) = .ok (items, info) ∧
      Paginated [1, 2, 3] 2 items info :=
  (paginate_paginated_iff [1, 2, 3] 2 (by decide) 1).mpr (by decide)

theorem paginate_not_paginated :
    ¬∀ (data : List Nat) (pagesize page : Nat), 1 ≤ pagesize →
      ∃ items info, paginate data pagesize page = .ok (items, info) ∧
        Paginated data pagesize items info := by
  intro hall
  obtain ⟨items, info, heq, hpaginated⟩ := hall [1, 2] 2 0 (by decide)
  have hpage : paginate [1, 2] 2 (0 : Nat) = .ok ([1, 2], pageInfo 2 2 1 0 10) := by rfl
  rw [hpage] at heq
  cases heq
  exact absurd hpaginated.counted (by decide)

end HackerUnion.Common
